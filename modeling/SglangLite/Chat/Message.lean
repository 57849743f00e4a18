import SglangLite.JsonText

set_option autoImplicit false

namespace SglangLite.Chat

open JsonText

abbrev Str := List Char

theorem ok_bind {ε α β : Type} (a : α) (f : α → Except ε β) : (Except.ok a >>= f) = f a := rfl

theorem bind_eq_ok {ε α β : Type} {x : Except ε α} {f : α → Except ε β} {b : β} :
    (x >>= f) = .ok b ↔ ∃ a, x = .ok a ∧ f a = .ok b := by
  cases x with
  | error e => exact ⟨fun h => (by cases h),fun ⟨a,h,_⟩ => (by cases h)⟩
  | ok a => exact ⟨fun h => ⟨a,rfl,h⟩,fun ⟨_,ha,h⟩ => (by cases ha; exact h)⟩

theorem mapM_eq_ok {ε α β : Type} {f : α → Except ε β} {xs : List α} {ys : List β} :
    xs.mapM f = .ok ys ↔ List.Forall₂ (fun x y => f x = .ok y) xs ys := by
  induction xs generalizing ys with
  | nil =>
    rw [List.mapM_nil]
    exact ⟨fun h => (by cases h; exact .nil),fun h => (by cases h; rfl)⟩
  | cons x xs ih =>
    rw [List.mapM_cons,bind_eq_ok]
    constructor
    · rintro ⟨y,hy,h⟩
      obtain ⟨ys',hys,h⟩ := bind_eq_ok.mp h
      cases h
      exact .cons hy (ih.mp hys)
    · rintro (_ | ⟨hy,hys⟩)
      exact ⟨_,hy,bind_eq_ok.mpr ⟨_,ih.mpr hys,rfl⟩⟩

theorem mapM_congr {ε α β : Type} {f g : α → Except ε β} {xs : List α} (h : ∀ x ∈ xs, f x = g x) :
    xs.mapM f = xs.mapM g := by
  induction xs with
  | nil => rfl
  | cons x xs ih =>
    rw [List.mapM_cons,List.mapM_cons,h x List.mem_cons_self,ih fun y hy => h y (List.mem_cons_of_mem _ hy)]

section Tokens

def bosToken : Str := "<｜begin▁of▁sentence｜>".toList

def eosToken : Str := "<｜end▁of▁sentence｜>".toList

def thinkingStartToken : Str := "<think>".toList

def thinkingEndToken : Str := "</think>".toList

def dsmlToken : Str := "｜DSML｜".toList

def userSpToken : Str := "<｜User｜>".toList

def assistantSpToken : Str := "<｜Assistant｜>".toList

def latestReminderSpToken : Str := "<｜latest_reminder｜>".toList

/-- `DS_TASK_SP_TOKENS`. -/
def taskSpTokens : List (Str × Str) :=
  [("action".toList,"<｜action｜>".toList),("query".toList,"<｜query｜>".toList),
    ("authority".toList,"<｜authority｜>".toList),("domain".toList,"<｜domain｜>".toList),
    ("title".toList,"<｜title｜>".toList),("read_url".toList,"<｜read_url｜>".toList)]

end Tokens

inductive Mode where
  | chat | thinking
  deriving DecidableEq, Repr

inductive Effort where
  | max | high
  deriving DecidableEq, Repr

/-- The role of a message; `other` is one that the encoding does not know. -/
inductive Role where
  | system | developer | user | latestReminder | tool | assistant | directSearchResults
  | other (name : Str)
  deriving DecidableEq, Repr

/-- A part of the content of a tool message: text, or something else by its
type. -/
inductive Part where
  | text (t : Str)
  | other (type : Str)
  deriving DecidableEq, Repr

inductive Content where
  | missing
  | null
  | text (t : Str)
  | parts (ps : List Part)
  deriving DecidableEq, Repr

inductive Block where
  | text (c : Content)
  | toolResult (useId : Str) (c : Content)
  | other (type : Str)
  deriving DecidableEq, Repr

structure ToolCall where
  id : Str := []
  functionId : Str := []
  name : Str
  arguments : Str
  deriving DecidableEq, Repr

/-- A message. Of `tools` and `response_format` what is empty counts as absent. -/
structure Message (F : Type) where
  role : Role
  content : Content := .missing
  contentBlocks : Option (List Block) := none
  tools : List (Value F) := []
  responseFormat : Option (Value F) := none
  toolCalls : List ToolCall := []
  reasoningContent : Str := []
  task : Option Str := none
  woEos : Bool := false
  toolCallId : Str := []

inductive EncodeError where
  | invalidDeveloper
  | toolRole
  | unknownRole (name : Str)
  | invalidTask (task : Str)
  | toolWithoutFunction
  | argumentsNotAnObject
  | contentNotText
  | noSuchMessage
  deriving DecidableEq, Repr

section Templates

def reasoningEffortMax : Str :=
  ("Reasoning Effort: Absolute maximum with no shortcuts permitted.\n" ++
    "You MUST be very thorough in your thinking and comprehensively decompose the problem to " ++
    "resolve the root cause, rigorously stress-testing your logic against all potential paths, " ++
    "edge cases, and adversarial scenarios.\n" ++
    "Explicitly write out your entire deliberation process, documenting every intermediate step, " ++
    "considered alternative, and rejected hypothesis to ensure absolutely no assumption is left " ++
    "unchecked.\n\n").toList

/-- `TOOLS_TEMPLATE`, with its fields filled in. -/
def toolsTemplate (toolSchemas : Str) : Str :=
  ["## Tools\n\nYou have access to a set of tools to help answer the user's question. ".toList,
    "You can invoke tools by writing a \"<".toList,dsmlToken,
    "tool_calls>\" block like the following:\n\n<".toList,dsmlToken,"tool_calls>\n<".toList,dsmlToken,
    "invoke name=\"$TOOL_NAME\">\n<".toList,dsmlToken,
    "parameter name=\"$PARAMETER_NAME\" string=\"true|false\">$PARAMETER_VALUE</".toList,dsmlToken,
    "parameter>\n...\n</".toList,dsmlToken,"invoke>\n<".toList,dsmlToken,
    "invoke name=\"$TOOL_NAME2\">\n...\n</".toList,dsmlToken,"invoke>\n</".toList,dsmlToken,
    "tool_calls>\n\nString parameters should be specified as is and set `string=\"true\"`. ".toList,
    "For all other types (numbers, booleans, arrays, objects), pass the value in JSON format and ".toList,
    "set `string=\"false\"`.\n\nIf thinking_mode is enabled (triggered by ".toList,thinkingStartToken,
    "), you MUST output your complete reasoning inside ".toList,thinkingStartToken,"...".toList,
    thinkingEndToken,
    " BEFORE any tool calls or final response.\n\nOtherwise, output directly after ".toList,
    thinkingEndToken,
    " with tool calls or final response.\n\n### Available Tool Schemas\n\n".toList,toolSchemas,
    "\n\nYou MUST strictly follow the above defined tool name and parameter schemas to invoke ".toList,
    "tool calls.\n".toList].flatten

def responseFormatTemplate (schema : Str) : Str :=
  "## Response Format:\n\nYou MUST strictly adhere to the following schema to reply:\n".toList ++ schema

def toolOutputTemplate (content : Str) : Str :=
  "<tool_result>".toList ++ content ++ "</tool_result>".toList

end Templates

section Arguments

variable {F : Type} (fl : Floats F)

/-- `to_json`: a text has no character that `ensure_ascii` would be needed for. -/
def toJson (v : Value F) : Str := dumps fl false v

def paramValue : Value F → Str × Bool
  | .str s => (s,true)
  | v => (toJson fl v,false)

def nameMark : Str := "name=\"".toList

def stringMark : Str := "\" string=\"".toList

def closeMark : Str := "\">".toList

def flagText (isStr : Bool) : Str := if isStr then "true".toList else "false".toList

/-- `p_dsml_template`. -/
def paramText (key value : Str) (isStr : Bool) : Str :=
  '<' :: (dsmlToken ++ "parameter ".toList ++ nameMark ++ key ++ stringMark ++ flagText isStr ++
    closeMark ++ value ++ "</".toList ++ dsmlToken ++ "parameter>".toList)

/-- The arguments of a call as an object; what is no JSON becomes one argument. -/
def loadArguments (arguments : Str) : Except EncodeError (List (Str × Value F)) :=
  match loads fl arguments with
  | some (.obj kvs) => .ok kvs
  | some _ => .error .argumentsNotAnObject
  | none => .ok [("arguments".toList,.str arguments)]

def paramTexts (kvs : List (Str × Value F)) : List Str :=
  kvs.map fun kv => paramText kv.1 (paramValue fl kv.2).1 (paramValue fl kv.2).2

def encodeArgumentsToDsml (arguments : Str) : Except EncodeError Str :=
  (loadArguments fl arguments).map fun kvs => ['\n'].intercalate (paramTexts fl kvs)

/-- `tool_call_template`. -/
def toolCallText (name arguments : Str) : Str :=
  '<' :: (dsmlToken ++ "invoke ".toList ++ nameMark ++ name ++ closeMark ++ ['\n'] ++ arguments ++
    "\n</".toList ++ dsmlToken ++ "invoke>".toList)

/-- `tool_calls_template`. -/
def toolCallsText (calls : List Str) : Str :=
  '<' :: (dsmlToken ++ "tool_calls>\n".toList ++ ['\n'].intercalate calls ++ "\n</".toList ++ dsmlToken ++
    "tool_calls>".toList)

/-- `tool["function"]`. -/
def toolFunction : Value F → Except EncodeError (Value F)
  | .obj kvs =>
      match kvs.find? fun kv => kv.1 = "function".toList with
      | some kv => .ok kv.2
      | none => .error .toolWithoutFunction
  | _ => .error .toolWithoutFunction

/-- `render_tools`, of the functions of the tools. -/
def renderTools (tools : List (Value F)) : Str := toolsTemplate (['\n'].intercalate (tools.map (toJson fl)))

end Arguments

end SglangLite.Chat
