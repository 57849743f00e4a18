import SglangLite.Framing

set_option autoImplicit false

namespace SglangLite.Control.Http

open Framing

structure Usage where
  promptTokens : UInt32
  completionTokens : UInt32
  totalTokens : UInt32
  cacheHitTokens : Option UInt32 := none
  deriving DecidableEq, Repr

structure TokenDelta where
  text : String := ""
  finishReason : Option String := none
  usage : Option Usage := none
  error : Option String := none
  token : Option Int64 := none
  deriving DecidableEq

/-- `str::from_utf8` and `serde_json::from_str::<TokenDelta>`, with the texts
of their errors. -/
structure Decoders where
  utf8 : List UInt8 → Except String String
  json : String → Except String TokenDelta

/-- The `White_Space` characters. -/
def isWhitespace (c : Char) : Bool :=
  let n := c.toNat
  (9 ≤ n && n ≤ 13) || n == 32 || n == 0x85 || n == 0xA0 || n == 0x1680 ||
    (0x2000 ≤ n && n ≤ 0x200A) || n == 0x2028 || n == 0x2029 || n == 0x202F || n == 0x205F || n == 0x3000

/-- `str::trim`. -/
def trim (s : String) : String :=
  String.ofList (((s.toList.dropWhile isWhitespace).reverse.dropWhile isWhitespace).reverse)

inductive Line where
  | blank
  | bad (e : String)
  | delta (d : TokenDelta)

def Decoders.line (dec : Decoders) (bytes : List UInt8) : Line :=
  if bytes = [] then .blank
  else
    match dec.utf8 bytes with
    | .error e => .bad ("utf-8 TokenDelta line: " ++ e)
    | .ok s =>
        if trim s = "" then .blank
        else
          match dec.json (trim s) with
          | .error e => .bad ("bad TokenDelta json: " ++ e ++ " (" ++ trim s ++ ")")
          | .ok d => .delta d

def TokenDelta.done (d : TokenDelta) : Bool := d.finishReason.isSome || d.error.isSome

/-- What the spawned task has done: the deltas its receiver took and the
cancels it posted. -/
structure Sent where
  deltas : List TokenDelta := []
  cancels : Nat := 0

/-- One line of the inner loop. `reads n` tells whether the receiver is still
there for delta `n`; an early return leaves the text of its error, if any. -/
def step (dec : Decoders) (reads : Nat → Bool) (s : Sent) (bytes : List UInt8) :
    Except (Sent × Option String) Sent :=
  match dec.line bytes with
  | .blank => .ok s
  | .bad e => .error (s,some e)
  | .delta d =>
      if reads s.deltas.length then
        let s' := { s with deltas := s.deltas ++ [d] }
        if d.done then .error (s',none) else .ok s'
      else .error ({ s with cancels := s.cancels+1 },none)

/-- The answer of the engine: no connection, a status that is no success with
what `text` reads of its body, or the body as it arrives. -/
inductive Response where
  | failed (e : String)
  | refused (text : Option String)
  | stream (items : List (Except String (List UInt8)))

def newline : UInt8 := 10

def unfinished : String := "engine stream ended without finish_reason"

def streamRead (s : Sent) (e : String) : Sent × Option String := (s,some ("stream read: " ++ e))

def result : Except (Sent × Option String) Sent → Sent × Option String
  | .error r => r
  | .ok s => (s,some unfinished)

/-- The `async` block of `generate_stream`. -/
def readResponse (dec : Decoders) (reads : Nat → Bool) : Response → Sent × Option String
  | .failed e => ({},some ("engine connect: " ++ e))
  | .refused text => ({},some ("engine HTTP error: " ++ text.getD ""))
  | .stream items => result (readChunks newline (step dec reads) streamRead {} [] items)

def errorDelta (e : String) : TokenDelta where
  finishReason := some "error"
  error := some e

def generateStream (dec : Decoders) (reads : Nat → Bool) (resp : Response) : Sent :=
  match readResponse dec reads resp with
  | (s,none) => s
  | (s,some e) =>
      if reads s.deltas.length then { s with deltas := s.deltas ++ [errorDelta e] } else s

def always : Nat → Bool := fun _ => true

/-- The decoding of lines: up to the first terminal delta or the first line
that is none, or all of them and then the error `rest`. -/
def decoded (dec : Decoders) (rest : String) : List (List UInt8) → List TokenDelta
  | [] => [errorDelta rest]
  | l :: ls =>
      match dec.line l with
      | .blank => decoded dec rest ls
      | .bad e => [errorDelta e]
      | .delta d => if d.done then [d] else d :: decoded dec rest ls

def ending : Option String → String
  | none => unfinished
  | some e => "stream read: " ++ e

def bodyLines (items : List (Except String (List UInt8))) : List (List UInt8) :=
  (frames newline (received items).1).1

def settle (r : Sent × Option String) : List TokenDelta :=
  match r with
  | (s,none) => s.deltas
  | (s,some e) => s.deltas ++ [errorDelta e]

theorem fold_step (dec : Decoders) (fault : Option String) (s : Sent) (ls : List (List UInt8)) :
    settle (result ((ls.foldlM (step dec always) s).bind (conclude streamRead fault))) =
      s.deltas ++ decoded dec (ending fault) ls := by
  induction ls generalizing s with
  | nil => cases fault <;> rfl
  | cons l ls ih =>
    rw [List.foldlM_cons,decoded]
    cases hl : dec.line l with
    | blank =>
      have hs : step dec always s l = .ok s := by rw [step,hl]
      rw [hs]
      exact ih s
    | bad e =>
      have hs : step dec always s l = .error (s,some e) := by rw [step,hl]
      rw [hs]
      rfl
    | delta d =>
      by_cases hd : d.done = true
      · have hs : step dec always s l = .error ({ s with deltas := s.deltas ++ [d] },none) := by
          simp [step,hl,always,hd]
        rw [hs]
        simp only [hd,if_true]
        rfl
      · have hs : step dec always s l = .ok { s with deltas := s.deltas ++ [d] } := by
          simp [step,hl,always,hd]
        rw [hs]
        simp only [hd]
        refine (ih _).trans ?_
        simp

theorem generateStream_stream (dec : Decoders) (items : List (Except String (List UInt8))) :
    (generateStream dec always (.stream items)).deltas =
      decoded dec (ending (received items).2) (bodyLines items) := by
  have hfold := fold_step dec (received items).2 {} (bodyLines items)
  have hread := readChunks_eq (d := newline) (step dec always) streamRead {} [] items cut_nil
  rw [List.nil_append] at hread
  rw [bodyLines,← hread,List.nil_append] at hfold
  rw [bodyLines,← hfold,generateStream,readResponse]
  generalize result (readChunks newline (step dec always) streamRead {} [] items) = r
  obtain ⟨s,e⟩ := r
  cases e <;> rfl

theorem ndjson_chunking (dec : Decoders) {chunks chunks' : List (List UInt8)}
    (h : chunks.flatten = chunks'.flatten) :
    (generateStream dec always (.stream (chunks.map .ok))).deltas =
        (generateStream dec always (.stream (chunks'.map .ok))).deltas ∧
      ∃ lines rest, chunks.flatten = lines.flatMap (· ++ [newline]) ++ rest ∧
        (∀ l ∈ lines, newline ∉ l) ∧ newline ∉ rest ∧
        (generateStream dec always (.stream (chunks.map .ok))).deltas =
          decoded dec unfinished lines := by
  rw [generateStream_stream,generateStream_stream,bodyLines,bodyLines,received_ok,received_ok,h]
  obtain ⟨hjoin,hlines,hrest⟩ := frames_spec (d := newline) chunks'.flatten
  exact ⟨rfl,_,_,hjoin,hlines,hrest,rfl⟩

def ascii (text : String) : List UInt8 := text.toList.map fun c => UInt8.ofNat c.toNat

def firstLine : String := "\x7b\"text\":\"a\"\x7d"

def lastLine : String := "\x7b\"text\":\"b\",\"finish_reason\":\"stop\"\x7d"

def spoken : Decoders where
  utf8 := fun bytes => .ok (String.ofList (bytes.map fun b => Char.ofNat b.toNat))
  json := fun s =>
    if s = firstLine then .ok { text := "a" }
    else if s = lastLine then .ok { text := "b", finishReason := some "stop" }
    else .error "expected value at line 1 column 1"

def body : List UInt8 := ascii firstLine ++ [newline] ++ (ascii lastLine ++ [newline])

theorem ndjson_chunking_split_line :
    (generateStream spoken always (.stream [.ok (body.take 5),.ok [],.ok (body.drop 5)])).deltas =
      [{ text := "a" },{ text := "b", finishReason := some "stop" }] := by
  have h := (@ndjson_chunking spoken [body.take 5,[],body.drop 5] [body] (by decide +kernel)).1
  exact h.trans (by decide +kernel)

end SglangLite.Control.Http
