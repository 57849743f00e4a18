import SglangLite.Chat.Message

set_option autoImplicit false

namespace SglangLite.Chat

open JsonText

variable {F : Type}

section Render

/-- `content or ""`. A list is printed by the source as Python prints it. -/
def Content.orEmpty : Content → Except EncodeError Str
  | .text t => .ok t
  | .missing | .null | .parts [] => .ok []
  | .parts _ => .error .contentNotText

def Part.render : Part → Str
  | .text t => t
  | .other type => "[Unsupported ".toList ++ type ++ "]".toList

/-- What a tool result holds, as `format` prints it. -/
def Content.toolText : Content → Str
  | .missing => []
  | .null => "None".toList
  | .text t => t
  | .parts ps => "\n\n".toList.intercalate (ps.map Part.render)

def Block.render : Block → Except EncodeError Str
  | .text .missing => .ok []
  | .text (.text t) => .ok t
  | .text _ => .error .contentNotText
  | .toolResult _ c => .ok (toolOutputTemplate c.toolText)
  | .other type => .ok ("[Unsupported ".toList ++ type ++ "]".toList)

/-- The place of the last message that `p` holds of, or -1. -/
def lastIndex (p : Message F → Bool) : List (Message F) → Int
  | [] => -1
  | m :: ms =>
      let i := lastIndex p ms
      if 0 ≤ i then i+1 else if p m then 0 else -1

def Message.isUser (m : Message F) : Bool := m.role = .user || m.role = .developer

def findLastUserIndex (messages : List (Message F)) : Int := lastIndex Message.isUser messages

variable (fl : Floats F) (mode : Mode) (dropThinking : Bool)

def renderExtras (m : Message F) : Except EncodeError Str := do
  let tools ← m.tools.mapM toolFunction
  return (if tools = [] then [] else "\n\n".toList ++ renderTools fl tools) ++
    match m.responseFormat with
    | none => []
    | some schema => "\n\n".toList ++ responseFormatTemplate (toJson fl schema)

def renderToolCalls (calls : List ToolCall) : Except EncodeError Str :=
  if calls = [] then .ok []
  else do
    let texts ← calls.mapM fun c => (encodeArgumentsToDsml fl c.arguments).map (toolCallText c.name)
    return "\n\n".toList ++ toolCallsText texts

def completion (thinking : Bool) (m : Message F) : Except EncodeError Str := do
  let calls ← renderToolCalls fl m.toolCalls
  let content ← m.content.orEmpty
  return (if thinking then m.reasoningContent ++ thinkingEndToken else []) ++ content ++ calls ++
    if m.woEos then [] else eosToken

def prevHasTask (index : Nat) (messages : List (Message F)) : Bool :=
  0 < index && ((messages[index-1]?).bind Message.task).isSome

/-- The part of `render_message` that depends on the role. -/
def renderBody (index : Nat) (messages : List (Message F)) (m : Message F) : Except EncodeError Str := do
  let _ ← m.tools.mapM toolFunction
  match m.role with
  | .system => return (← m.content.orEmpty) ++ (← renderExtras fl m)
  | .developer =>
      match m.content with
      | .text (c :: t) => return userSpToken ++ (c :: t) ++ (← renderExtras fl m)
      | .parts (_ :: _) => .error .contentNotText
      | _ => .error .invalidDeveloper
  | .user =>
      match m.contentBlocks with
      | some (b :: bs) => return userSpToken ++ "\n\n".toList.intercalate (← (b :: bs).mapM Block.render)
      | _ => return userSpToken ++ (← m.content.orEmpty)
  | .latestReminder =>
      match m.content with
      | .text t => return latestReminderSpToken ++ t
      | .parts _ => .error .contentNotText
      | _ => return latestReminderSpToken ++ "None".toList
  | .tool => .error .toolRole
  | .assistant =>
      completion fl (mode = .thinking && !prevHasTask index messages &&
        (!dropThinking || findLastUserIndex messages < index)) m
  | .directSearchResults => .error (.unknownRole "direct_search_results".toList)
  | .other name => .error (.unknownRole name)

def transition (index : Nat) (messages : List (Message F)) (m : Message F) : Except EncodeError Str :=
  match m.task with
  | some task =>
      match taskSpTokens.find? fun t => t.1 = task with
      | none => .error (.invalidTask task)
      | some t =>
          if task ≠ "action".toList then .ok t.2
          else .ok (assistantSpToken ++
            (if mode = .thinking then thinkingStartToken else thinkingEndToken) ++ t.2)
  | none =>
      if m.isUser then
        .ok (assistantSpToken ++
          if mode = .thinking && (!dropThinking || findLastUserIndex messages ≤ index) then
            thinkingStartToken
          else thinkingEndToken)
      else .ok []

def leadsOn (index : Nat) (messages : List (Message F)) : Bool :=
  match messages[index+1]? with
  | none => true
  | some next => next.role = .assistant || next.role = .latestReminder

def renderMessage (effort : Option Effort) (index : Nat) (messages : List (Message F)) :
    Except EncodeError Str :=
  match messages[index]? with
  | none => .error .noSuchMessage
  | some m => do
      let body ← renderBody fl mode dropThinking index messages m
      let prompt := (if index = 0 ∧ mode = .thinking ∧ effort = some .max then reasoningEffortMax else []) ++ body
      if leadsOn index messages then
        return prompt ++ (← transition mode dropThinking index messages m)
      else return prompt

end Render

section Preprocess

def Message.merging (m : Message F) : Bool := m.role = .user && m.contentBlocks.isSome

def Message.addBlock (m : Message F) (b : Block) : Message F :=
  { m with contentBlocks := m.contentBlocks.map (· ++ [b]) }

def mergeInto (merged : List (Message F)) (ok : Message F → Bool) (b : Block) (new : Message F) :
    List (Message F) :=
  match merged.getLast? with
  | some last => if last.merging && ok last then merged.dropLast ++ [last.addBlock b] else merged ++ [new]
  | none => merged ++ [new]

/-- One message of `merge_tool_messages`, with the merged messages before it. -/
def mergeStep (merged : List (Message F)) (msg : Message F) : List (Message F) :=
  match msg.role with
  | .tool =>
      let b := Block.toolResult msg.toolCallId msg.content
      mergeInto merged (fun _ => true) b { role := .user, contentBlocks := some [b] }
  | .user =>
      let b := Block.text msg.content
      mergeInto merged (fun last => last.task.isNone) b
        { role := .user, content := msg.content, contentBlocks := some [b], task := msg.task, woEos := msg.woEos }
  | _ => merged ++ [msg]

def mergeToolMessages (messages : List (Message F)) : List (Message F) := messages.foldl mergeStep []

/-- `tc.get("id") or tc.get("function", …).get("id", "")`. -/
def ToolCall.callId (c : ToolCall) : Str := if c.id = [] then c.functionId else c.id

/-- The last place of a call id among the calls of a message. -/
def callOrder (calls : List ToolCall) : List (Str × Nat) :=
  (calls.zipIdx.filterMap fun c => if c.1.callId = [] then none else some (c.1.callId,c.2)).reverse

def orderKey (order : List (Str × Nat)) (useId : Str) : Nat :=
  ((order.find? fun o => o.1 = useId).map Prod.snd).getD 0

def Block.isResult : Block → Bool
  | .toolResult _ _ => true
  | _ => false

def Block.useId : Block → Str
  | .toolResult useId _ => useId
  | _ => []

def refill : List Block → List Block → List Block
  | [], _ => []
  | b :: bs, sorted =>
      if b.isResult then
        match sorted with
        | [] => b :: refill bs []
        | s :: ss => s :: refill bs ss
      else b :: refill bs sorted

def sortBlocks (order : List (Str × Nat)) (blocks : List Block) : List Block :=
  let results := blocks.filter Block.isResult
  if 1 < results.length ∧ order ≠ [] then
    refill blocks (results.mergeSort fun a b => orderKey order a.useId ≤ orderKey order b.useId)
  else blocks

/-- `sort_tool_results_by_call_order`, with the order that the last tool calls
gave. -/
def sortFrom : List (Str × Nat) → List (Message F) → List (Message F)
  | _, [] => []
  | order, m :: ms =>
      if m.role = .assistant ∧ m.toolCalls ≠ [] then m :: sortFrom (callOrder m.toolCalls) ms
      else if m.role = .user then
        { m with contentBlocks := m.contentBlocks.map (sortBlocks order) } :: sortFrom order ms
      else m :: sortFrom order ms

def sortToolResultsByCallOrder (messages : List (Message F)) : List (Message F) := sortFrom [] messages

def Role.kept : Role → Bool
  | .user | .system | .tool | .latestReminder | .directSearchResults => true
  | _ => false

def dropThinkingMessages (messages : List (Message F)) : List (Message F) :=
  let lastUser := findLastUserIndex messages
  messages.zipIdx.filterMap fun e =>
    if e.1.role.kept || lastUser ≤ e.2 then some e.1
    else if e.1.role = .assistant then some { e.1 with reasoningContent := [] }
    else none

end Preprocess

/-- The arguments of `encode_messages` besides the messages. -/
structure Options where
  thinkingMode : Mode
  dropThinking : Bool := true
  addDefaultBosToken : Bool := true
  reasoningEffort : Option Effort := none

section Encode

variable (fl : Floats F) (o : Options)

def toRender (dropping : Bool) (ctx merged : List (Message F)) : List (Message F) × Nat :=
  if o.thinkingMode = .thinking ∧ dropping = true then
    let kept := dropThinkingMessages (ctx ++ merged)
    (kept,kept.length-(dropThinkingMessages ctx).length)
  else (ctx ++ merged,merged.length)

def encodeMessages (messages context : List (Message F)) : Except EncodeError Str := do
  let merged := (sortToolResultsByCallOrder (context ++ mergeToolMessages messages)).drop context.length
  let ctx := sortToolResultsByCallOrder (mergeToolMessages context)
  let dropping := o.dropThinking && !(ctx ++ merged).any fun m => !m.tools.isEmpty
  let r := toRender o dropping ctx merged
  let texts ← (List.range' (r.1.length-r.2) r.2).mapM fun i =>
    renderMessage fl o.thinkingMode dropping o.reasoningEffort i r.1
  return (if o.addDefaultBosToken && ctx.isEmpty then bosToken else []) ++ texts.flatten

end Encode

end SglangLite.Chat
