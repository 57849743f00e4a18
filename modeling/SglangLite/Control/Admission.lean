import SglangLite.Control.Params

set_option autoImplicit false

namespace SglangLite.Control
open Kv Sched Text Loop

/-- `f32`: a sign bit, 8 bits of exponent and 23 of mantissa. -/
structure F32 where
  bits : BitVec 32
  deriving DecidableEq, Repr

namespace F32

def exponent (x : F32) : Nat := x.bits.toNat / 2^23 % 2^8

def mantissa (x : F32) : Nat := x.bits.toNat % 2^23

def magnitude (x : F32) : Rat :=
  if x.exponent = 0 then x.mantissa / 2^149 else (2^23+x.mantissa)*2^x.exponent / 2^150

def num (x : F32) : Num :=
  if x.exponent = 255 then if x.mantissa = 0 then .inf x.bits.msb else .nan
  else .fin (if x.bits.msb then -x.magnitude else x.magnitude)

def zero : F32 := ⟨0#32⟩

def one : F32 := ⟨0x3f800000#32⟩

@[simp] theorem num_zero : zero.num = .fin 0 := by decide +kernel

@[simp] theorem num_one : one.num = .fin 1 := by decide +kernel

end F32

/-- `serde_json` has no number for an infinity or a NaN. -/
def floatJson : Num → Json
  | .fin q => .float q
  | _ => .null

section Handler

/-- `ChatMessage` of the control plane; the calls of a tool are opaque. -/
inductive ChatMessage where
  | system (content : String) (name : Option String)
  | user (content : String) (name : Option String)
  | assistant (content : Option String) (toolCalls : Option (List Json))
  | tool (content toolCallId : String)

/-- The fields of `ChatCompletionRequest` that the handler reads. -/
structure ChatCompletionRequest where
  model : String
  messages : List ChatMessage
  maxTokens : Option UInt32 := none
  temperature : Option F32 := none
  topP : Option F32 := none
  topK : Option Int32 := none
  stop : Option (List String) := none
  seed : Option UInt64 := none
  stream : Option Bool := none
  responseFormat : Option Json := none
  extra : List (String × Json) := []

structure AppState where
  modelList : List String
  ready : Bool
  draining : Bool

/-- `api_err`: status, type, message and code. -/
structure ApiErr where
  status : Nat
  type : String
  message : String
  code : String
  deriving DecidableEq, Repr

def badRequest (message code : String) : ApiErr := ⟨400,"invalid_request_error",message,code⟩

/-- `GenerationRequest` of the control plane. -/
structure EngineRequest where
  requestId : String
  model : String
  messages : List ChatMessage
  maxTokens : UInt32
  temperature : F32
  topP : F32
  topK : Option Int32
  seed : Option UInt64
  stop : Option (List String)
  stream : Bool

def containsText (c s : String) : Bool := decide (s.toList <:+: c.toList)

def ChatMessage.multimodal : ChatMessage → Bool
  | .user c _ => containsText c "data:image" || containsText c "<image>"
  | _ => false

def outOfScope : List String := ["tools","tool_choice","logit_bias","n","functions"]

/-- `chat_completions` up to the request for the engine. -/
def chatCompletions (state : AppState) (uuid : String) (req : ChatCompletionRequest) :
    Except ApiErr EngineRequest :=
  if state.draining then
    .error ⟨503,"server_error","server is draining; not accepting new requests","draining"⟩
  else if !state.ready then .error ⟨503,"server_error","model not ready","not_ready"⟩
  else if req.model ∉ state.modelList then
    .error (badRequest ("model '" ++ req.model ++ "' not supported in sglang-lite (see GET /v1/models).")
      "model_not_found")
  else if req.messages.isEmpty then .error (badRequest "messages must be non-empty" "invalid_messages")
  else if req.messages.any ChatMessage.multimodal then
    .error (badRequest "Multimodal content is not supported in sglang-lite core."
      "multimodal_not_supported")
  else if req.responseFormat.isSome then
    .error (badRequest "response_format / structured output is not supported inside the engine."
      "structured_output_not_supported")
  else if req.maxTokens.any (· < 1) then
    .error (badRequest "max_tokens must be >= 1" "invalid_max_tokens")
  else if req.temperature.any fun t => t.num.lt (.fin 0) then
    .error (badRequest "temperature must be >= 0" "invalid_temperature")
  else if req.topP.any fun p => !inUnit p.num then
    .error (badRequest "top_p must be in (0, 1]" "invalid_top_p")
  else
    match outOfScope.find? fun key => (req.extra.lookup key).isSome with
    | some key =>
        .error (badRequest ("parameter '" ++ key ++ "' is not supported in sglang-lite")
          "unsupported_parameter")
    | none =>
        .ok {
          requestId := "chatcmpl-" ++ uuid
          model := req.model
          messages := req.messages
          maxTokens := req.maxTokens.getD 512
          temperature := req.temperature.getD .zero
          topP := req.topP.getD .one
          topK := req.topK
          seed := req.seed
          stop := req.stop
          stream := req.stream.getD false }

end Handler

section Body

/-- An optional field that `skip_serializing_if` leaves out. -/
def optional (k : String) : Option Json → List (String × Json)
  | none => []
  | some v => [(k,v)]

def ChatMessage.entries : ChatMessage → List (String × Json)
  | .system c name =>
      [("role",.string "system"),("content",.string c)] ++ optional "name" (name.map .string)
  | .user c name =>
      [("role",.string "user"),("content",.string c)] ++ optional "name" (name.map .string)
  | .assistant c calls =>
      ("role",.string "assistant") :: optional "content" (c.map .string) ++
        optional "tool_calls" (calls.map .array)
  | .tool c id => [("role",.string "tool"),("content",.string c),("tool_call_id",.string id)]

def orNull : Option Json → Json
  | none => .null
  | some v => v

/-- `HttpEngineClient::body_json`. -/
def bodyJson (req : EngineRequest) (stream : Bool) : Json :=
  .object [
    ("request_id",.string req.requestId),
    ("model",.string req.model),
    ("messages",.array (req.messages.map fun m => .object m.entries)),
    ("max_tokens",.int req.maxTokens.toNat),
    ("temperature",floatJson req.temperature.num),
    ("top_p",floatJson req.topP.num),
    ("top_k",orNull (req.topK.map fun k => .int k.toInt)),
    ("seed",orNull (req.seed.map fun s => .int s.toNat)),
    ("stop",orNull (req.stop.map fun l => .array (l.map .string))),
    ("stream",.bool stream),
    ("timeout_s",.float 300)]

end Body

section Engine

/-- How pydantic reads a model from JSON: values of a type, `Optional[...]`,
`List[...]`, a field with its default and its validator, and the fields together.
What it makes of a value of another shape, and how it words and collects the
errors, is left open. -/
structure Pydantic where
  string : Json → Option String
  int : Json → Option Int
  float : Json → Option Num
  bool : Json → Option Bool
  dict : Json → Option (List (String × Json))
  optional : {α : Type} → (Json → Option α) → Json → Option (Option α)
  list : {α : Type} → (Json → Option α) → Json → Option (List α)
  read : {α : Type} → Json → String → (Json → Option α) → α → (α → List FieldError) →
    Except (List FieldError) α
  both : {α β : Type} → Except (List FieldError) (α → β) → Except (List FieldError) α →
    Except (List FieldError) β
  string_string : ∀ s, string (.string s) = some s
  int_int : ∀ n, int (.int n) = some n
  float_float : ∀ q, float (.float q) = some (.fin q)
  float_null : float .null = none
  bool_bool : ∀ b, bool (.bool b) = some b
  dict_object : ∀ o, dict (.object o) = some o
  optional_null : ∀ {α : Type} (dec : Json → Option α), optional dec .null = some none
  optional_some : ∀ {α : Type} (dec : Json → Option α) v x, v ≠ .null → dec v = some x →
    optional dec v = some (some x)
  list_array : ∀ {α : Type} (dec : Json → Option α) l xs, l.mapM dec = some xs →
    list dec (.array l) = some xs
  read_missing : ∀ {α : Type} (body : Json) k dec (dflt : α) check, body.field k = none →
    read body k dec dflt check = .ok dflt
  read_ok : ∀ {α : Type} (body : Json) k dec (dflt : α) check v x, body.field k = some v → dec v = some x →
    check x = [] → read body k dec dflt check = .ok x
  read_bad : ∀ {α : Type} (body : Json) k dec (dflt : α) check v, body.field k = some v →
    (∀ x, dec v = some x → check x ≠ []) → ∃ e, read body k dec dflt check = .error e
  both_ok : ∀ {α β : Type} (f : Except (List FieldError) (α → β)) a y,
    both f a = .ok y ↔ ∃ g z, f = .ok g ∧ a = .ok z ∧ g z = y

namespace Pydantic

variable {α β : Type}

def free (_ : α) : List FieldError := []

/-- The engine process reads a `GenerationRequest`; `fresh` is the id that it
makes for a request without one. -/
def generationRequest (py : Pydantic) (fresh : String) (body : Json) :
    Except (List FieldError) GenerationRequest :=
  py.both (py.both (py.both (py.both (py.both (py.both (py.both (py.both (py.both (py.both (py.both (py.both
    (.ok GenerationRequest.mk)
    (py.read body "request_id" py.string fresh free))
    (py.read body "model" py.string "" free))
    (py.read body "messages" (py.optional (py.list py.dict)) none free))
    (py.read body "input_ids" (py.optional (py.list py.int)) none free))
    (py.read body "max_tokens" py.int 128 validMaxTokens))
    (py.read body "temperature" py.float (.fin 0) validTemperature))
    (py.read body "top_p" py.float (.fin 1) validTopP))
    (py.read body "top_k" (py.optional py.int) none free))
    (py.read body "seed" (py.optional py.int) none free))
    (py.read body "stop" (py.optional (py.list py.string)) none free))
    (py.read body "stream" py.bool true free))
    (py.read body "timeout_s" py.float (.fin 300) free)

section Reading

variable (py : Pydantic) {dec : Json → Option α}

theorem list_map {enc : β → Json} {f : β → α} (h : ∀ y, dec (enc y) = some (f y)) (l : List β) :
    py.list dec (.array (l.map enc)) = some (l.map f) := by
  refine py.list_array dec _ _ ?_
  induction l with
  | nil => rfl
  | cons y l ih =>
    rw [List.map_cons,List.mapM_cons,h,ih]
    rfl

theorem optional_map {enc : β → Json} {f : β → α} (h : ∀ y, dec (enc y) = some (f y))
    (hn : ∀ y, enc y ≠ .null) (o : Option β) :
    py.optional dec (orNull (o.map enc)) = some (o.map f) := by
  cases o with
  | none => exact py.optional_null dec
  | some y => exact py.optional_some dec _ _ (hn y) (h y)

end Reading

end Pydantic

def received (g : EngineRequest) (t p : Rat) (stream : Bool) : GenerationRequest where
  requestId := g.requestId
  model := g.model
  messages := some (g.messages.map ChatMessage.entries)
  inputIds := none
  maxTokens := g.maxTokens.toNat
  temperature := .fin t
  topP := .fin p
  topK := g.topK.map Int32.toInt
  seed := g.seed.map fun s => (s.toNat : Int)
  stop := g.stop
  stream := stream
  timeoutS := .fin 300

section Body

variable {py : Pydantic} {fresh : String} {g : EngineRequest} {stream : Bool}

variable (py fresh stream) in
theorem body_read {t p : Rat} (ht : g.temperature.num = .fin t) (hp : g.topP.num = .fin p)
    (hv : (received g t p stream).errors = []) :
    py.generationRequest fresh (bodyJson g stream) = .ok (received g t p stream) := by
  have hparts : validMaxTokens g.maxTokens.toNat = [] ∧ validTemperature (.fin t) = [] ∧
      validTopP (.fin p) = [] := by
    simpa [GenerationRequest.errors,received,and_assoc] using hv
  have hmsgs : py.optional (py.list py.dict) (.array (g.messages.map fun m => .object m.entries)) =
      some (some (g.messages.map ChatMessage.entries)) := by
    refine py.optional_some _ _ _ (by simp) ?_
    exact py.list_map (f := ChatMessage.entries) (fun m => py.dict_object m.entries) g.messages
  have hstop : py.optional (py.list py.string) (orNull (g.stop.map fun l => .array (l.map .string))) =
      some g.stop := by
    have hlist : ∀ l : List String, py.list py.string (.array (l.map .string)) = some (id l) :=
      fun l => by simpa using py.list_map (f := id) py.string_string l
    simpa using py.optional_map hlist (by simp) g.stop
  have htopK : py.optional py.int (orNull (g.topK.map fun k => .int k.toInt)) =
      some (g.topK.map Int32.toInt) :=
    py.optional_map (f := Int32.toInt) (fun k => py.int_int k.toInt) (by simp) g.topK
  have hseed : py.optional py.int (orNull (g.seed.map fun s => .int s.toNat)) =
      some (g.seed.map fun s => (s.toNat : Int)) :=
    py.optional_map (f := fun s => (s.toNat : Int)) (fun s => py.int_int s.toNat) (by simp) g.seed
  have hboth : ∀ {α β : Type} (f : α → β) x, py.both (.ok f) (.ok x) = .ok (f x) := fun f x =>
    (py.both_ok _ _ _).mpr ⟨f,x,rfl,rfl,rfl⟩
  unfold Pydantic.generationRequest
  rw [py.read_ok _ _ _ _ _ _ g.requestId rfl (py.string_string _) rfl,
    py.read_ok _ _ _ _ _ _ g.model rfl (py.string_string _) rfl,
    py.read_ok _ _ _ _ _ _ (some (g.messages.map ChatMessage.entries)) rfl hmsgs rfl,
    py.read_missing _ _ _ _ _ rfl,
    py.read_ok _ _ _ _ _ _ (g.maxTokens.toNat : Int) rfl (py.int_int _) hparts.1,
    py.read_ok _ _ _ _ _ _ (.fin t) rfl (by rw [ht]; exact py.float_float t) hparts.2.1,
    py.read_ok _ _ _ _ _ _ (.fin p) rfl (by rw [hp]; exact py.float_float p) hparts.2.2,
    py.read_ok _ _ _ _ _ _ (g.topK.map Int32.toInt) rfl htopK rfl,
    py.read_ok _ _ _ _ _ _ (g.seed.map fun s => (s.toNat : Int)) rfl hseed rfl,
    py.read_ok _ _ _ _ _ _ g.stop rfl hstop rfl,
    py.read_ok _ _ _ _ _ _ stream rfl (py.bool_bool _) rfl,
    py.read_ok _ _ _ _ _ _ (.fin 300) rfl (py.float_float 300) rfl]
  simp only [hboth]
  rfl

theorem body_rejected {r : GenerationRequest} (ht : g.temperature.num.isFinite = false) :
    py.generationRequest fresh (bodyJson g stream) ≠ .ok r := by
  obtain ⟨e,hbad⟩ : ∃ e, py.read (bodyJson g stream) "temperature" py.float (.fin 0) validTemperature =
      .error e := by
    refine py.read_bad _ _ _ _ _ .null ?_ fun x hx => ?_
    · cases hn : g.temperature.num with
      | fin q => rw [hn] at ht; simp [Num.isFinite] at ht
      | _ =>
        show some (floatJson g.temperature.num) = _
        rw [hn]
        rfl
    · rw [py.float_null] at hx
      cases hx
  intro h
  unfold Pydantic.generationRequest at h
  -- the fields after the temperature
  obtain ⟨_,_,h,_⟩ := (py.both_ok _ _ _).mp h
  obtain ⟨_,_,h,_⟩ := (py.both_ok _ _ _).mp h
  obtain ⟨_,_,h,_⟩ := (py.both_ok _ _ _).mp h
  obtain ⟨_,_,h,_⟩ := (py.both_ok _ _ _).mp h
  obtain ⟨_,_,h,_⟩ := (py.both_ok _ _ _).mp h
  obtain ⟨_,_,h,_⟩ := (py.both_ok _ _ _).mp h
  obtain ⟨_,_,_,h,_⟩ := (py.both_ok _ _ _).mp h
  rw [hbad] at h
  cases h

end Body

section Accepted

variable {state : AppState} {uuid : String} {req : ChatCompletionRequest} {g : EngineRequest}

structure Checked (req : ChatCompletionRequest) (g : EngineRequest) : Prop where
  maxTokens : 1 ≤ g.maxTokens.toNat
  temperature : g.temperature.num.lt (.fin 0) = false
  topP : inUnit g.topP.num = true
  heat : g.temperature = req.temperature.getD .zero
  topK : g.topK = req.topK

theorem checked_of_ok (h : chatCompletions state uuid req = .ok g) : Checked req g := by
  unfold chatCompletions at h
  split_ifs at h with _ _ _ _ _ _ hmax htemp htop
  split at h
  · cases h
  · obtain rfl := Except.ok.inj h
    refine ⟨?_,?_,?_,rfl,rfl⟩
    · cases hm : req.maxTokens with
      | none => exact (by decide : 1 ≤ (512 : UInt32).toNat)
      | some mt =>
        rw [hm] at hmax
        have hge : ¬ mt < 1 := by simpa using hmax
        rw [UInt32.lt_iff_toNat_lt] at hge
        exact Nat.not_lt.mp hge
    · cases ht : req.temperature with
      | none => simp [Num.lt]
      | some t => simpa [ht] using htemp
    · cases hp : req.topP with
      | none => simp [inUnit,Num.lt,Num.le]
      | some p => simpa [hp] using htop

theorem inUnit_fin {v : Num} (h : inUnit v = true) : ∃ q, v = .fin q := by
  cases v with
  | nan => simp [inUnit,Num.lt] at h
  | inf neg => cases neg <;> simp [inUnit,Num.lt,Num.le] at h
  | fin q => exact ⟨q,rfl⟩

/-- The engine takes an accepted request exactly when its temperature is finite
and its `top_k` is not negative: the handler does not look at `top_k`, and an
`f32` overflows to infinity, for which JSON has no number. -/
theorem admission_refines (py : Pydantic) (fresh uuid : String) (state : AppState)
    (req : ChatCompletionRequest) (g : EngineRequest) (h : chatCompletions state uuid req = .ok g)
    (stream : Bool) (inputIds : List Token) (hids : inputIds ≠ []) :
    (∃ r, py.generationRequest fresh (bodyJson g stream) = .ok r ∧
        submitChecks false inputIds (paramsFromReq r) = .ok ()) ↔
      (∀ t, req.temperature = some t → t.num.isFinite = true) ∧
        ∀ k, req.topK = some k → 0 ≤ k.toInt := by
  have hc := checked_of_ok h
  have hfin : (∀ t, req.temperature = some t → t.num.isFinite = true) ↔
      g.temperature.num.isFinite = true := by
    rw [hc.heat]
    cases req.temperature with
    | none => simp [Num.isFinite]
    | some t => simp
  rw [hfin]
  cases ht : g.temperature.num.isFinite with
  | false =>
    constructor
    · rintro ⟨r,hr,_⟩
      exact absurd hr (body_rejected ht)
    · rintro ⟨hf,_⟩
      exact absurd hf (by simp)
  | true =>
    obtain ⟨t,htemp⟩ : ∃ t, g.temperature.num = .fin t := by
      cases hn : g.temperature.num with
      | fin q => exact ⟨q,rfl⟩
      | _ => rw [hn] at ht; simp [Num.isFinite] at ht
    obtain ⟨p,htop⟩ := inUnit_fin hc.topP
    have hread := body_read py fresh stream htemp htop <| by
      rw [GenerationRequest.errors_eq_nil]
      have hmax := hc.maxTokens
      have h0 := htemp ▸ hc.temperature
      have h1 := htop ▸ hc.topP
      refine ⟨?_,h0,h1⟩
      simp only [received]
      omega
    have hsub : submitChecks false inputIds (paramsFromReq (received g t p stream)) = .ok () ↔
        ∀ k, req.topK = some k → 0 ≤ k.toInt := by
      rw [submitChecks_ok,← hc.topK]
      have hmax := hc.maxTokens
      have h0 := htemp ▸ hc.temperature
      have h1 := htop ▸ hc.topP
      cases hk : g.topK with
      | none => simp [paramsFromReq,received,GenParams.samplingOk,h0,h1,hk,hids]; omega
      | some k => simp [paramsFromReq,received,GenParams.samplingOk,h0,h1,hk,hids]; omega
    rw [← hsub]
    simp [hread]

def readField {α : Type} (body : Json) (k : String) (dec : Json → Option α) (dflt : α)
    (check : α → List FieldError) : Except (List FieldError) α :=
  match body.field k with
  | none => .ok dflt
  | some v =>
      match dec v with
      | none => .error [⟨k,"Input should be a valid value"⟩]
      | some x => if check x = [] then .ok x else .error (check x)

def collect {α β : Type} : Except (List FieldError) (α → β) → Except (List FieldError) α →
    Except (List FieldError) β
  | .ok f, .ok a => .ok (f a)
  | .ok _, .error e => .error e
  | .error e, .ok _ => .error e
  | .error e, .error e' => .error (e ++ e')

/-- pydantic on values of the type that a field has, and on whole numbers for
a float. -/
def pydantic : Pydantic where
  string | .string s => some s | _ => none
  int | .int n => some n | _ => none
  float | .float q => some (.fin q) | .int n => some (.fin n) | _ => none
  bool | .bool b => some b | _ => none
  dict | .object o => some o | _ => none
  optional dec | .null => some none | v => (dec v).map some
  list dec | .array l => l.mapM dec | _ => none
  read := readField
  both := collect
  string_string _ := rfl
  int_int _ := rfl
  float_float _ := rfl
  float_null := rfl
  bool_bool _ := rfl
  dict_object _ := rfl
  optional_null _ := rfl
  optional_some dec v x hv hx := by cases v <;> simp_all
  list_array _ _ _ h := h
  read_missing _ _ _ _ _ h := by simp [readField,h]
  read_ok _ _ _ _ _ _ _ h hd hc := by simp [readField,h,hd,hc]
  read_bad _ _ dec _ check v h hc := by
    cases hd : dec v with
    | none => exact ⟨_,by simp only [readField,h,hd]; rfl⟩
    | some x => exact ⟨check x,by simp only [readField,h,hd,if_neg (hc x hd)]⟩
  both_ok f a y := by cases f <;> cases a <;> simp [collect]

theorem ok_of_toOption {ε α : Type} {e : Except ε α} {x : α} (h : e.toOption = some x) : e = .ok x := by
  cases e with
  | error e => simp [Except.toOption] at h
  | ok y => rw [← Option.some.inj h]

def ready : AppState := ⟨["moe"],true,false⟩

def hello (topK : Option Int32) : ChatCompletionRequest where
  model := "moe"
  messages := [.user "hello" none]
  maxTokens := some 4294967295
  temperature := some ⟨0x3f000000#32⟩
  topK := topK
  seed := some 18446744073709551615

theorem admission_refines_hello : ∃ g, chatCompletions ready "0" (hello (some 40)) = .ok g ∧
    ∃ r, pydantic.generationRequest "" (bodyJson g true) = .ok r ∧
      submitChecks false [1,2] (paramsFromReq r) = .ok () := by
  have hok : (chatCompletions ready "0" (hello (some 40))).toOption.isSome = true := by decide +kernel
  obtain ⟨g,hg⟩ := Option.isSome_iff_exists.mp hok
  have hg := ok_of_toOption hg
  refine ⟨g,hg,(admission_refines pydantic "" "0" ready _ g hg true [1,2] (by simp)).mpr ⟨?_,?_⟩⟩
  · intro t ht
    obtain rfl := Option.some.inj ht
    decide +kernel
  · intro k hk
    obtain rfl := Option.some.inj hk
    decide

theorem negative_topK_refused : ∃ g, chatCompletions ready "0" (hello (some (-1))) = .ok g ∧
    ∃ r, pydantic.generationRequest "" (bodyJson g true) = .ok r ∧
      submitChecks false [1,2] (paramsFromReq r) = .error (.valueError "top_k must be >= 0") := by
  have hrun : ((chatCompletions ready "0" (hello (some (-1)))).toOption.bind fun g =>
      (pydantic.generationRequest "" (bodyJson g true)).toOption.map fun r =>
        decide (submitChecks false [1,2] (paramsFromReq r) =
          .error (.valueError "top_k must be >= 0"))) = some true := by
    decide +kernel
  obtain ⟨g,hg,hv⟩ := Option.bind_eq_some_iff.mp hrun
  obtain ⟨r,hr,hv⟩ := Option.map_eq_some_iff.mp hv
  exact ⟨g,ok_of_toOption hg,r,ok_of_toOption hr,of_decide_eq_true hv⟩

end Accepted

end Engine

end SglangLite.Control
