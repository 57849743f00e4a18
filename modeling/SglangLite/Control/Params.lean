import SglangLite.Loop.Concurrent

set_option autoImplicit false

namespace SglangLite.Control
open Kv Sched Text Loop

/-- A floating-point number by its value; the two zeros are one number. -/
inductive Num where
  | nan
  | inf (neg : Bool)
  | fin (q : Rat)
  deriving DecidableEq, Repr

namespace Num

/-- `<` of IEEE 754. -/
def lt : Num → Num → Bool
  | .nan, _ => false
  | _, .nan => false
  | .inf a, .inf b => a && !b
  | .inf a, .fin _ => a
  | .fin _, .inf b => !b
  | .fin p, .fin q => decide (p < q)

/-- `<=` of IEEE 754. -/
def le : Num → Num → Bool
  | .nan, _ => false
  | _, .nan => false
  | .inf a, .inf b => a || !b
  | .inf a, .fin _ => a
  | .fin _, .inf b => !b
  | .fin p, .fin q => decide (p ≤ q)

def isFinite : Num → Bool
  | .fin _ => true
  | _ => false

end Num

/-- `0.0 < v <= 1.0`. -/
def inUnit (v : Num) : Bool := (Num.fin 0).lt v && v.le (.fin 1)

inductive Json where
  | null
  | bool (b : Bool)
  | int (n : Int)
  | float (q : Rat)
  | string (s : String)
  | array (l : List Json)
  | object (o : List (String × Json))

def Json.field (k : String) : Json → Option Json
  | .object o => o.lookup k
  | _ => none

/-- `GenerationRequest` of the engine process. -/
structure GenerationRequest where
  requestId : String
  model : String := ""
  messages : Option (List (List (String × Json))) := none
  inputIds : Option (List Int) := none
  maxTokens : Int := 128
  temperature : Num := .fin 0
  topP : Num := .fin 1
  topK : Option Int := none
  seed : Option Int := none
  stop : Option (List String) := none
  stream : Bool := true
  timeoutS : Num := .fin 300

structure FieldError where
  field : String
  message : String
  deriving DecidableEq, Repr

section Validators

def checkField (field message : String) (ok : Bool) : List FieldError :=
  if ok then [] else [⟨field,message⟩]

def validMaxTokens (v : Int) : List FieldError :=
  checkField "max_tokens" "max_tokens must be >= 1" (!decide (v < 1))

def validTemperature (v : Num) : List FieldError :=
  checkField "temperature" "temperature must be >= 0" (!v.lt (.fin 0))

def validTopP (v : Num) : List FieldError :=
  checkField "top_p" "top_p must be in (0, 1]" (inUnit v)

/-- The field validators of `GenerationRequest`. -/
def GenerationRequest.errors (r : GenerationRequest) : List FieldError :=
  validMaxTokens r.maxTokens ++ validTemperature r.temperature ++ validTopP r.topP

theorem checkField_eq_nil {field message : String} {ok : Bool} :
    checkField field message ok = [] ↔ ok = true := by
  cases ok <;> simp [checkField]

theorem GenerationRequest.errors_eq_nil {r : GenerationRequest} : r.errors = [] ↔
    1 ≤ r.maxTokens ∧ r.temperature.lt (.fin 0) = false ∧ inUnit r.topP = true := by
  simp only [errors,validMaxTokens,validTemperature,validTopP,List.append_eq_nil_iff,checkField_eq_nil]
  simp [and_assoc]

end Validators

structure GenParams where
  maxTokens : Int := 128
  temperature : Num := .fin 0
  topP : Num := .fin 1
  topK : Option Int := none
  seed : Option Int := none
  stop : Option (List String) := none
  timeoutS : Num := .fin 300
  ignoreEos : Bool := false
  skipStreamingText : Bool := false

def paramsFromReq (r : GenerationRequest) : GenParams where
  maxTokens := r.maxTokens
  temperature := r.temperature
  topP := r.topP
  topK := r.topK
  seed := r.seed
  stop := r.stop
  timeoutS := r.timeoutS

inductive Refusal where
  | runtimeError (e : String)
  | valueError (e : String)
  deriving DecidableEq, Repr

/-- The checks at the head of `submit`. -/
def submitChecks (draining : Bool) (inputIds : List Token) (p : GenParams) : Except Refusal Unit :=
  if draining then .error (.runtimeError "engine is draining; not accepting new requests")
  else if p.maxTokens ≤ 0 then .error (.valueError "max_tokens must be >= 1")
  else if p.temperature.lt (.fin 0) then .error (.valueError "temperature must be >= 0")
  else if !inUnit p.topP then .error (.valueError "top_p must be in (0, 1]")
  else if p.topK.any (· < 0) then .error (.valueError "top_k must be >= 0")
  else if inputIds = [] then .error (.valueError "input_ids must be non-empty")
  else .ok ()

def GenParams.samplingOk (p : GenParams) : Bool :=
  !p.temperature.lt (.fin 0) && inUnit p.topP && !p.topK.any (· < 0)

theorem submitChecks_ok {inputIds : List Token} {p : GenParams} :
    submitChecks false inputIds p = .ok () ↔
      1 ≤ p.maxTokens ∧ p.samplingOk = true ∧ inputIds ≠ [] := by
  unfold submitChecks GenParams.samplingOk
  split_ifs <;> simp_all <;> omega

/-- The double `1e-5`, up to which the runner decodes greedily. -/
def greedyBound : Num := .fin (5902958103587057/590295810358705651712)

/-- What `submit` puts into its queue; the clock of the loop counts `timeout`
for `timeout_s`. -/
def pendingOf (requestId : RequestId) (inputIds : List Token) (p : GenParams) (timeout : Time) : Pending where
  request := {
    requestId := requestId
    inputIds := inputIds
    maxTokens := p.maxTokens.toNat
    greedy := p.temperature.le greedyBound
    stopStrings := (p.stop.getD []).map String.toList
    ignoreEos := p.ignoreEos
    skipStreamingText := p.skipStreamingText }
  timeout := timeout
  paramsOk := p.samplingOk

theorem refuses_pendingOf {R : Type} (s : EngineLoop R) (requestId : RequestId) (inputIds : List Token)
    (p : GenParams) (timeout : Time) :
    s.refuses (pendingOf requestId inputIds p timeout) = false ↔
      submitChecks s.draining inputIds p = .ok () := by
  cases hd : s.draining with
  | true => simp [EngineLoop.refuses,submitChecks,hd]
  | false =>
    rw [submitChecks_ok]
    have h : s.refuses (pendingOf requestId inputIds p timeout) = false ↔
        ¬ (p.maxTokens.toNat = 0 ∨ p.samplingOk = false ∨ inputIds = []) := by
      rw [EngineLoop.refuses,hd,Bool.false_or]
      exact decide_eq_false_iff_not
    rw [h,not_or,not_or,Bool.not_eq_false]
    refine and_congr_left fun _ => ?_
    omega

end SglangLite.Control
