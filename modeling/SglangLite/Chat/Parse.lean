import SglangLite.Scan
import SglangLite.Chat.Encode

set_option autoImplicit false

namespace SglangLite.Chat

open JsonText Scan

section Marks

def invokeStart : Str := '<' :: (dsmlToken ++ "invoke".toList)

def invokeEnd : Str := "</".toList ++ dsmlToken ++ "invoke".toList

def parameterStart : Str := '<' :: (dsmlToken ++ "parameter".toList)

def parameterEnd : Str := '/' :: (dsmlToken ++ "parameter".toList)

def toolCallsStartToken : Str := "\n\n<".toList ++ dsmlToken ++ "tool_calls".toList

def toolCallsEndToken : Str := "</".toList ++ dsmlToken ++ "tool_calls>".toList

def lineEnd : Str := ">\n".toList

end Marks

/-- The errors of the parser, with the texts they show. -/
inductive ParseError where
  | toolCallFormat (got : Str)
  | missingSpecialToken
  | toolNameFormat (got : Str)
  | parameterFormat (got : Str)
  | duplicateParameter (name : Str)
  | parameterEndFormat (got : Str)
  | missingThinkEnd
  | missingEos
  | contentAfterToolCalls
  | contentAtEnd
  | specialToken (token : Str)
  deriving DecidableEq, Repr

section Patterns

/-- `\s` of a text pattern. -/
def isBlank (c : Char) : Bool :=
  let n := c.toNat
  (9 ≤ n && n ≤ 13) || (28 ≤ n && n ≤ 32) || n == 0x85 || n == 0xA0 || n == 0x1680 ||
    (0x2000 ≤ n && n ≤ 0x200A) || n == 0x2028 || n == 0x2029 || n == 0x202F || n == 0x205F || n == 0x3000

/-- `$` of a pattern: the end, or one last newline. -/
def atEnd (t : Str) : Bool := t = [] || t = ['\n']

/-- `s$`. -/
def ending (s t : Str) : Option Unit :=
  match strip s t with
  | some r => if atEnd r then some () else none
  | none => none

/-- `^\s*name="(.*?)">\n$`. -/
def toolNamePattern (t : Str) : Option Str :=
  match strip nameMark (t.dropWhile isBlank) with
  | some r => (lazy (ending (closeMark ++ ['\n'])) r).map Prod.fst
  | none => none

/-- `(.*?)<$`. -/
def valuePattern (t : Str) : Option Str := (lazy (ending ['<']) t).map Prod.fst

/-- `(true|false)">(.*?)<$`, the flag and the value. -/
def flagPattern (t : Str) : Option (Bool × Str) :=
  match strip (flagText true ++ closeMark) t with
  | some v => (valuePattern v).map fun v => (true,v)
  | none =>
      match strip (flagText false ++ closeMark) t with
      | some v => (valuePattern v).map fun v => (false,v)
      | none => none

/-- `^ name="(.*?)" string="(true|false)">(.*?)<$`. -/
def parameterPattern (t : Str) : Option (Str × Bool × Str) :=
  match strip (' ' :: nameMark) t with
  | some r => lazy (fun t => (strip stringMark t).bind flagPattern) r
  | none => none

end Patterns

def decodeDsmlToArguments (args : List (Str × Bool × Str)) : Str :=
  '{' :: (", ".toList.intercalate (args.map fun a =>
    quote false a.1 ++ ": ".toList ++ if a.2.1 then quote false a.2.2 else a.2.2) ++ ['}'])

theorem length_readUntil (stops : List Str) (hne : ∀ s ∈ stops, s ≠ []) (t : Str) :
    (readUntil stops t).2.2.length ≤ t.length ∧
      ((readUntil stops t).2.1 ≠ none → (readUntil stops t).2.2.length < t.length) := by
  rcases h : readUntil stops t with ⟨c,_ | s,r⟩
  · obtain ⟨_,rfl⟩ := readUntil_none h
    exact ⟨Nat.zero_le _,fun h => absurd rfl h⟩
  · obtain ⟨hs,ht,_⟩ := readUntil_some h
    have hpos := List.length_pos_of_ne_nil (hne s hs)
    have hlen := congrArg List.length ht
    simp only [List.length_append] at hlen
    exact ⟨by simp only; omega,fun _ => by simp only; omega⟩

def parseParameter (args : List (Str × Bool × Str)) (t : Str) :
    Except ParseError (List (Str × Bool × Str) × Option Str × Str) :=
  let r := readUntil [parameterEnd] t
  match parameterPattern r.1 with
  | none => .error (.parameterFormat r.1)
  | some p =>
      if args.any fun a => a.1 = p.1 then .error (.duplicateParameter p.1)
      else
        let r' := readUntil [parameterStart,invokeEnd] r.2.2
        if r'.1 ≠ lineEnd then .error (.parameterEndFormat r'.1) else .ok (args ++ [p],r'.2)

def left : Option Str → Str → Nat
  | none, _ => 0
  | some _, t => t.length+1

theorem parseParameter_shorter {args : List (Str × Bool × Str)} {t : Str}
    {r : List (Str × Bool × Str) × Option Str × Str} (h : parseParameter args t = .ok r) :
    r.2.2.length ≤ t.length ∧ left r.2.1 r.2.2 < left (some parameterStart) t := by
  simp only [parseParameter] at h
  split at h
  · cases h
  · split_ifs at h
    cases h
    have h1 := (length_readUntil [parameterEnd] (by decide) t).1
    have h2 := length_readUntil [parameterStart,invokeEnd] (by decide) (readUntil [parameterEnd] t).2.2
    simp only
    cases hs : (readUntil [parameterStart,invokeEnd] (readUntil [parameterEnd] t).2.2).2.1 with
    | none => exact ⟨Nat.le_trans h2.1 h1,Nat.zero_lt_succ _⟩
    | some s =>
      have h3 := h2.2 (by rw [hs]; exact Option.some_ne_none s)
      exact ⟨Nat.le_trans h2.1 h1,Nat.succ_lt_succ (Nat.lt_of_lt_of_le h3 h1)⟩

def parseParameters (args : List (Str × Bool × Str)) (stop : Option Str) (t : Str) :
    Except ParseError (List (Str × Bool × Str) × Option Str × Str) :=
  if stop = some parameterStart then
    match _h : parseParameter args t with
    | .error e => .error e
    | .ok r => parseParameters r.1 r.2.1 r.2.2
  else .ok (args,stop,t)
termination_by left stop t
decreasing_by
  subst stop
  exact (parseParameter_shorter _h).2

theorem parseParameters_step {args : List (Str × Bool × Str)} {t : Str}
    {r : List (Str × Bool × Str) × Option Str × Str} (h : parseParameter args t = .ok r) :
    parseParameters args (some parameterStart) t = parseParameters r.1 r.2.1 r.2.2 := by
  rw [parseParameters,if_pos rfl]
  split
  · rename_i he; rw [h] at he; cases he
  · rename_i he; rw [h] at he; cases he; rfl

theorem parseParameters_refused {args : List (Str × Bool × Str)} {t : Str} {e : ParseError}
    (h : parseParameter args t = .error e) : parseParameters args (some parameterStart) t = .error e := by
  rw [parseParameters,if_pos rfl]
  split
  · rename_i he; rw [h] at he; cases he; rfl
  · rename_i he; rw [h] at he; cases he

theorem parseParameters_done {args : List (Str × Bool × Str)} {stop : Option Str} {t : Str}
    (h : stop ≠ some parameterStart) : parseParameters args stop t = .ok (args,stop,t) := by
  rw [parseParameters,if_neg h]

theorem length_parseParameters {args : List (Str × Bool × Str)} {stop : Option Str} {t : Str}
    {r : List (Str × Bool × Str) × Option Str × Str} (h : parseParameters args stop t = .ok r) :
    r.2.2.length ≤ t.length := by
  induction args, stop, t using parseParameters.induct with
  | case1 args t e he =>
    rw [parseParameters_refused he] at h
    cases h
  | case2 args t r' hr ih =>
    rw [parseParameters_step hr] at h
    exact Nat.le_trans (ih h) (parseParameter_shorter hr).1
  | case3 args stop t hstop =>
    rw [parseParameters_done hstop] at h
    cases h
    exact Nat.le_refl _

/-- A call from its name on: its name and arguments, the mark that ended it and
what follows. -/
def parseInvoke (t : Str) : Except ParseError ((Str × Str) × Option Str × Str) :=
  let r := readUntil [parameterStart,invokeEnd] t
  match toolNamePattern r.1 with
  | none => .error (.toolNameFormat r.1)
  | some name => (parseParameters [] r.2.1 r.2.2).map fun p => ((name,decodeDsmlToArguments p.1),p.2)

theorem length_parseInvoke {t : Str} {r : (Str × Str) × Option Str × Str} (h : parseInvoke t = .ok r) :
    r.2.2.length ≤ t.length := by
  simp only [parseInvoke] at h
  split at h
  · cases h
  · rename_i name _
    cases hp : parseParameters [] (readUntil [parameterStart,invokeEnd] t).2.1
        (readUntil [parameterStart,invokeEnd] t).2.2 with
    | error e => rw [hp] at h; cases h
    | ok p =>
      rw [hp] at h
      cases h
      exact Nat.le_trans (length_parseParameters hp) (length_readUntil _ (by decide) t).1

/-- `parse_tool_calls`, from the calls and the mark that were read before. -/
def parseToolCalls (calls : List (Str × Str)) (stop : Option Str) (t : Str) :
    Except ParseError (List (Str × Str) × Option Str × Str) :=
  if t = [] then .ok (calls,stop,[])
  else
    let r := readUntil [invokeStart,toolCallsEndToken] t
    if r.1 ≠ lineEnd then .error (.toolCallFormat r.1)
    else if r.2.1 = some toolCallsEndToken then .ok (calls,r.2.1,r.2.2)
    else if _hs : r.2.1 = none then .error .missingSpecialToken
    else
      match _h : parseInvoke r.2.2 with
      | .error e => .error e
      | .ok p => parseToolCalls (calls ++ [p.1]) p.2.1 p.2.2
termination_by t.length
decreasing_by
  exact Nat.lt_of_le_of_lt (length_parseInvoke _h)
    ((length_readUntil [invokeStart,toolCallsEndToken] (by decide) t).2 _hs)

def specialTokens : List Str := [bosToken,eosToken,thinkingStartToken,thinkingEndToken,dsmlToken]

def readReasoning (mode : Mode) (text : Str) : Except ParseError (Str × Str) :=
  if mode = .thinking then
    let r := readUntil [thinkingEndToken,toolCallsStartToken] text
    if r.2.1 = some thinkingEndToken then .ok (r.1,r.2.2) else .error .missingThinkEnd
  else .ok ([],text)

def readAnswer (t : Str) : Except ParseError (Str × List (Str × Str) × Str) :=
  let r := readUntil [eosToken,toolCallsStartToken] t
  if r.2.1 = some toolCallsStartToken then do
    let p ← parseToolCalls [] none r.2.2
    let e := readUntil [eosToken] p.2.2
    if e.1 ≠ [] then .error .contentAfterToolCalls else .ok (r.1,p.1,e.2.2)
  else if r.2.1 = some eosToken then .ok (r.1,[],r.2.2)
  else .error .missingEos

def parseMessageFromCompletionText (F : Type) (text : Str) (mode : Mode) :
    Except ParseError (Message F) := do
  let r ← readReasoning mode text
  let a ← readAnswer r.2
  if a.2.2 ≠ [] then .error .contentAtEnd
  else
    match specialTokens.find? fun s => s <:+: a.1 || s <:+: r.1 with
    | some s => .error (.specialToken s)
    | none =>
        return { role := .assistant, content := .text a.1, reasoningContent := r.1,
                 toolCalls := a.2.1.map fun c => { name := c.1, arguments := c.2 } }

end SglangLite.Chat
