import SglangLite.Control.Ndjson

set_option autoImplicit false

namespace SglangLite.Control.Http

open Framing

structure ChunkChoice where
  index : UInt32 := 0
  role : Option String := none
  content : Option String := none
  finishReason : Option String := none
  deriving DecidableEq

structure ChatCompletionChunk where
  id : String
  object : String := "chat.completion.chunk"
  created : Int64
  model : String
  choices : List ChunkChoice
  usage : Option Usage := none
  deriving DecidableEq

/-- An SSE event: what `json_data` makes of a chunk, which cannot fail on
strings and integers, or a text. -/
inductive Event where
  | json (c : ChatCompletionChunk)
  | data (text : String)
  deriving DecidableEq

/-- `Event::data` of axum, by the texts on which it panics. -/
structure Axum where
  panics : String → Bool

def hasCr (text : String) : Prop := '\r' ∈ text.toList

instance (text : String) : Decidable (hasCr text) :=
  inferInstanceAs (Decidable ('\r' ∈ text.toList))

/-- What axum documents: it panics on a carriage return, and on nothing else. -/
def Axum.Documented (ax : Axum) : Prop := ∀ text, ax.panics text = true ↔ hasCr text

/-- `Event::default().data`. -/
def Event.ofText (ax : Axum) (text : String) : Option Event :=
  if ax.panics text then none else some (.data text)

structure Meta where
  requestId : String
  created : Int64
  model : String

def Meta.roleChunk (m : Meta) : ChatCompletionChunk where
  id := m.requestId
  created := m.created
  model := m.model
  choices := [{ role := some "assistant" }]

def Meta.contentChunk (m : Meta) (d : TokenDelta) : ChatCompletionChunk where
  id := m.requestId
  created := m.created
  model := m.model
  choices := [{ content := some d.text, finishReason := d.finishReason }]
  usage := d.usage

/-- What the generator of `stream_chat` has yielded and posted. -/
structure Chat where
  events : List Event
  cancels : Nat := 0
  sawFinish : Bool := false
  panicked : Bool := false

def engineError (e : String) : String := "engine error: " ++ e

/-- The loop of `stream_chat` over the deltas of the channel. -/
def chatLoop (ax : Axum) (m : Meta) (s : Chat) : List TokenDelta → Chat
  | [] => s
  | d :: ds =>
      match d.error with
      | some e =>
          match Event.ofText ax (engineError e) with
          | none => { s with panicked := true }
          | some ev => { s with events := s.events ++ [ev], cancels := s.cancels+1 }
      | none =>
          let s' := { s with events := s.events ++ [.json (m.contentChunk d)] }
          if d.finishReason.isSome then { s' with sawFinish := true } else chatLoop ax m s' ds

/-- The end of `stream_chat`, when its loop was not left by a panic. -/
def finishChat (ax : Axum) (s : Chat) : Chat :=
  if s.panicked then s
  else
    let s' := { s with cancels := if s.sawFinish then s.cancels else s.cancels+1 }
    match Event.ofText ax "[DONE]" with
    | none => { s' with panicked := true }
    | some ev => { s' with events := s'.events ++ [ev] }

/-- `stream_chat`, read to its end. -/
def streamChat (ax : Axum) (m : Meta) (ds : List TokenDelta) : Chat :=
  finishChat ax (chatLoop ax m { events := [.json m.roleChunk] } ds)

structure GenerationResult where
  text : String
  finishReason : String
  usage : Usage
  deriving DecidableEq

def zeroUsage : Usage := ⟨0,0,0,none⟩

def blockingLoop (r : GenerationResult) : List TokenDelta → Except String GenerationResult
  | [] => .ok r
  | d :: ds =>
      match d.error with
      | some e => .error (engineError e)
      | none =>
          blockingLoop
            ⟨r.text ++ d.text,d.finishReason.getD r.finishReason,d.usage.getD r.usage⟩ ds

def generateBlocking (ds : List TokenDelta) : Except String GenerationResult :=
  blockingLoop ⟨"","stop",zeroUsage⟩ ds

/-- A stream of deltas whose only terminal one is its last. -/
inductive Ends : List TokenDelta → TokenDelta → Prop
  | last {d : TokenDelta} (h : d.done = true) : Ends [d] d
  | next {d e : TokenDelta} {ds : List TokenDelta} (h : d.done = false) (rest : Ends ds e) :
      Ends (d :: ds) e

theorem TokenDelta.done_eq_false {d : TokenDelta} :
    d.done = false ↔ d.finishReason = none ∧ d.error = none := by
  simp [done]

theorem Ends.split {ds : List TokenDelta} {e : TokenDelta} (h : Ends ds e) :
    ∃ pre, ds = pre ++ [e] ∧ e.done = true ∧ ∀ d ∈ pre, d.done = false := by
  induction h with
  | last h => exact ⟨[],rfl,h,by simp⟩
  | @next d e ds h _ ih =>
    obtain ⟨pre,rfl,he,hpre⟩ := ih
    refine ⟨d :: pre,rfl,he,fun x hx => ?_⟩
    rcases List.mem_cons.mp hx with rfl | hx
    · exact h
    · exact hpre x hx

def decisive (dec : Decoders) (l : List UInt8) : Bool :=
  match dec.line l with
  | .blank => false
  | .bad _ => true
  | .delta d => d.done

def lineFault (dec : Decoders) (l : List UInt8) : Option String :=
  match dec.line l with
  | .blank => none
  | .bad e => some e
  | .delta d => d.error

/-- The first terminal or undecodable line of a body has its own text; without
one the body may have a transport error. -/
def faultText (dec : Decoders) : Response → Option String
  | .failed e => some e
  | .refused text => some (text.getD "")
  | .stream items =>
      match (bodyLines items).find? (decisive dec) with
      | some l => lineFault dec l
      | none => (received items).2

def Clean (dec : Decoders) (resp : Response) : Prop :=
  ∀ t, faultText dec resp = some t → ¬ hasCr t

theorem hasCr_append {a b : String} : hasCr (a++b) ↔ hasCr a ∨ hasCr b := by
  simp [hasCr]

theorem decoded_ends (dec : Decoders) (rest : String) (ls : List (List UInt8)) :
    ∃ e, Ends (decoded dec rest ls) e ∧ e.error =
      match ls.find? (decisive dec) with
      | some l => lineFault dec l
      | none => some rest := by
  induction ls with
  | nil => exact ⟨_,.last rfl,rfl⟩
  | cons l ls ih =>
    obtain ⟨e,hends,herr⟩ := ih
    rw [decoded]
    cases hl : dec.line l with
    | blank =>
      have hd : decisive dec l = false := by rw [decisive,hl]
      rw [List.find?_cons_of_neg (by simp [hd])]
      exact ⟨e,hends,herr⟩
    | bad t =>
      have hd : decisive dec l = true := by rw [decisive,hl]
      rw [List.find?_cons_of_pos hd]
      exact ⟨_,.last rfl,by simp only [lineFault,hl]; rfl⟩
    | delta d =>
      by_cases hdone : d.done = true
      · have hd : decisive dec l = true := by rw [decisive,hl]; exact hdone
        rw [List.find?_cons_of_pos hd]
        simp only [hdone,if_true,lineFault,hl]
        exact ⟨d,.last hdone,rfl⟩
      · have hd : decisive dec l = false := by
          rw [decisive,hl]
          simpa using hdone
        rw [List.find?_cons_of_neg (by simp [hd])]
        simp only [hdone]
        exact ⟨e,.next (by simpa using hdone) hends,herr⟩

/-- Every answer ends in one terminal delta, whose error text holds a carriage
return only if a text of the answer does. -/
theorem generateStream_ends (dec : Decoders) (resp : Response) :
    ∃ e, Ends (generateStream dec always resp).deltas e ∧
      ((∃ t, e.error = some t ∧ hasCr t) ↔ ¬ Clean dec resp) := by
  have hone : ∀ (label e : String), ¬ hasCr label →
      ((∃ t, (errorDelta (label++e)).error = some t ∧ hasCr t) ↔ hasCr e) := by
    intro label e hlabel
    simp [errorDelta,hasCr_append,hlabel]
  cases resp with
  | failed e =>
    refine ⟨errorDelta ("engine connect: " ++ e),.last rfl,?_⟩
    rw [hone _ _ (by decide)]
    simp [Clean,faultText]
  | refused text =>
    refine ⟨errorDelta ("engine HTTP error: " ++ text.getD ""),.last rfl,?_⟩
    rw [hone _ _ (by decide)]
    simp [Clean,faultText]
  | stream items =>
    obtain ⟨e,hends,herr⟩ := decoded_ends dec (ending (received items).2) (bodyLines items)
    refine ⟨e,generateStream_stream dec items ▸ hends,?_⟩
    rw [herr,Clean,faultText]
    cases (bodyLines items).find? (decisive dec) with
    | some l => simp
    | none =>
      cases (received items).2 with
      | none => simp [ending,show ¬ hasCr unfinished by decide]
      | some t => simp [ending,hasCr_append,show ¬ hasCr "stream read: " by decide]

theorem chatLoop_append (ax : Axum) (m : Meta) (s : Chat) {pre : List TokenDelta}
    (hpre : ∀ d ∈ pre, d.done = false) (ds : List TokenDelta) :
    chatLoop ax m s (pre++ds) =
      chatLoop ax m { s with events := s.events ++ pre.map fun d => .json (m.contentChunk d) } ds := by
  induction pre generalizing s with
  | nil => simp
  | cons d pre ih =>
    obtain ⟨hfin,herr⟩ := TokenDelta.done_eq_false.mp (hpre d List.mem_cons_self)
    rw [List.cons_append,chatLoop]
    simp only [herr,hfin,Option.isSome_none,Bool.false_eq_true,if_false]
    rw [ih _ fun x hx => hpre x (List.mem_cons_of_mem d hx)]
    simp only [List.map_cons,List.append_assoc,List.singleton_append]

theorem blockingLoop_append (r : GenerationResult) {pre : List TokenDelta}
    (hpre : ∀ d ∈ pre, d.done = false) (ds : List TokenDelta) :
    blockingLoop r (pre++ds) =
      blockingLoop ⟨pre.foldl (fun t d => t ++ d.text) r.text,r.finishReason,
        (pre.filterMap (·.usage)).getLast?.getD r.usage⟩ ds := by
  induction pre generalizing r with
  | nil => simp
  | cons d pre ih =>
    obtain ⟨hfin,herr⟩ := TokenDelta.done_eq_false.mp (hpre d List.mem_cons_self)
    rw [List.cons_append,blockingLoop]
    simp only [herr,hfin,Option.getD_none]
    rw [ih _ fun x hx => hpre x (List.mem_cons_of_mem d hx),List.foldl_cons]
    cases hu : d.usage with
    | none => simp [hu]
    | some u =>
      have hlast : ((u :: pre.filterMap (·.usage)).getLast?).getD r.usage =
          (pre.filterMap (·.usage)).getLast?.getD u := by
        cases pre.filterMap (·.usage) with
        | nil => rfl
        | cons v vs => simp [List.getLast?_cons]
      simp only [List.filterMap_cons,hu,Option.getD_some,hlast]

def texts (ds : List TokenDelta) : String := ds.foldl (fun t d => t ++ d.text) ""

def lastUsage (ds : List TokenDelta) : Usage := (ds.filterMap (·.usage)).getLast?.getD zeroUsage

def content (m : Meta) (ds : List TokenDelta) : List Event :=
  (ds.filter (·.error.isNone)).map fun d => .json (m.contentChunk d)

def Event.finishes : Event → Bool
  | .json c => c.choices.any (·.finishReason.isSome)
  | .data _ => false

theorem content_append (m : Meta) (pre ds : List TokenDelta) :
    content m (pre++ds) = content m pre ++ content m ds := by
  rw [content,List.filter_append,List.map_append]
  rfl

theorem content_pre (m : Meta) {pre : List TokenDelta} (hpre : ∀ d ∈ pre, d.done = false) :
    content m pre = pre.map fun d => .json (m.contentChunk d) := by
  rw [content,List.filter_eq_self.mpr]
  intro d hd
  rw [(TokenDelta.done_eq_false.mp (hpre d hd)).2]
  rfl

theorem content_finishes (m : Meta) {pre : List TokenDelta} (hpre : ∀ d ∈ pre, d.done = false) :
    (content m pre).countP Event.finishes = 0 := by
  rw [content_pre m hpre,List.countP_eq_zero]
  intro ev hev
  obtain ⟨d,hd,rfl⟩ := List.mem_map.mp hev
  simp [Event.finishes,Meta.contentChunk,(TokenDelta.done_eq_false.mp (hpre d hd)).1]

theorem content_count (m : Meta) (ds : List TokenDelta) (t : String) :
    (content m ds).count (.data t) = 0 := by
  rw [List.count_eq_zero]
  intro h
  obtain ⟨d,_,hd⟩ := List.mem_map.mp h
  cases hd

theorem engineError_ne_done (e : String) : engineError e ≠ "[DONE]" := by
  intro h
  have hhead : "engine error: ".toList = 'e' :: "ngine error: ".toList := by decide
  have := congrArg (fun t => t.toList.head?) h
  simp only [engineError,String.toList_append,hhead,List.cons_append,List.head?_cons] at this
  exact absurd this (by decide)

theorem ofText_of_clean {ax : Axum} (hax : ax.Documented) {text : String} (h : ¬ hasCr text) :
    Event.ofText ax text = some (.data text) := if_neg fun hp => h ((hax text).mp hp)

theorem streamChat_ends {ax : Axum} (hax : ax.Documented) (m : Meta) {pre : List TokenDelta}
    (hpre : ∀ d ∈ pre, d.done = false) {last : TokenDelta} (hlast : last.done = true)
    (hcr : ∀ t, last.error = some t → ¬ hasCr t) :
    (streamChat ax m (pre ++ [last])).panicked = false ∧
      (streamChat ax m (pre ++ [last])).events = [.json m.roleChunk] ++ content m (pre ++ [last]) ++
        last.error.toList.map (fun e => .data (engineError e)) ++ [.data "[DONE]"] ∧
      (last.error.isSome = true → 0 < (streamChat ax m (pre ++ [last])).cancels) := by
  have hdone : Event.ofText ax "[DONE]" = some (.data "[DONE]") := ofText_of_clean hax (by decide)
  rw [streamChat,chatLoop_append ax m _ hpre,content_append,content_pre m hpre,chatLoop]
  cases herr : last.error with
  | none =>
    have hfin : last.finishReason.isSome = true := by simpa [TokenDelta.done,herr] using hlast
    simp [hfin,finishChat,content,herr,hdone]
  | some t =>
    have htext : Event.ofText ax (engineError t) = some (.data (engineError t)) := by
      refine ofText_of_clean hax ?_
      rw [engineError,hasCr_append]
      simpa [show ¬ hasCr "engine error: " by decide] using hcr t herr
    simp [htext,finishChat,content,herr,hdone]

theorem streamChat_panics {ax : Axum} (hax : ax.Documented) (m : Meta) (pre : List TokenDelta)
    (hpre : ∀ d ∈ pre, d.done = false) {last : TokenDelta} {t : String} (herr : last.error = some t)
    (hcr : hasCr t) : (streamChat ax m (pre ++ [last])).panicked = true := by
  have htext : Event.ofText ax (engineError t) = none :=
    if_pos ((hax _).mpr (hasCr_append.mpr (.inr hcr)))
  rw [streamChat,chatLoop_append ax m _ hpre,chatLoop]
  simp [herr,htext,finishChat]

theorem generateBlocking_ends {pre : List TokenDelta} (hpre : ∀ d ∈ pre, d.done = false)
    (last : TokenDelta) :
    (∀ e, last.error = some e → generateBlocking (pre ++ [last]) = .error (engineError e)) ∧
      ∀ f, last.error = none → last.finishReason = some f →
        generateBlocking (pre ++ [last]) = .ok ⟨texts (pre ++ [last]),f,lastUsage (pre ++ [last])⟩ := by
  have hrun := blockingLoop_append ⟨"","stop",zeroUsage⟩ hpre [last]
  refine ⟨fun e he => ?_,fun f he hf => ?_⟩
  · rw [generateBlocking,hrun,blockingLoop,he]
  · rw [generateBlocking,hrun,blockingLoop,he]
    simp only [blockingLoop,hf,Option.getD_some,texts,lastUsage,List.foldl_append,List.foldl_cons,
      List.foldl_nil,List.filterMap_append,Except.ok.injEq,GenerationResult.mk.injEq,true_and]
    cases hu : last.usage with
    | none => simp [hu]
    | some u => simp [hu]

def axum : Axum := ⟨fun text => decide (hasCr text)⟩

theorem axum_documented : axum.Documented := fun _ => decide_eq_true_iff

/-- The stream of `stream_chat` runs to its end: after an error its event, the
cancel and the last event. -/
structure Completes (ax : Axum) (m : Meta) (ds : List TokenDelta) : Prop where
  ran : (streamChat ax m ds).panicked = false
  closed : (streamChat ax m ds).events.getLast? = some (.data "[DONE]")
  reported : ∀ d ∈ ds, ∀ e, d.error = some e →
    .data (engineError e) ∈ (streamChat ax m ds).events ∧ 0 < (streamChat ax m ds).cancels

theorem error_text_completes_iff {ax : Axum} (hax : ax.Documented) (m : Meta) (dec : Decoders)
    (resp : Response) : Completes ax m (generateStream dec always resp).deltas ↔ Clean dec resp := by
  obtain ⟨last,hends,hcr⟩ := generateStream_ends dec resp
  obtain ⟨pre,hds,hlast,hpre⟩ := hends.split
  rw [hds]
  constructor
  · intro h
    by_contra hbad
    obtain ⟨t,ht,hcr'⟩ := hcr.mpr hbad
    have := streamChat_panics hax m pre hpre ht hcr'
    rw [h.ran] at this
    cases this
  · intro hclean
    obtain ⟨hrun,hevents,hcancel⟩ := streamChat_ends hax m hpre hlast fun t ht h =>
      hcr.mp ⟨t,ht,h⟩ hclean
    refine ⟨hrun,by rw [hevents,List.getLast?_concat],fun d hd e he => ?_⟩
    have hd' : d = last := by
      rcases List.mem_append.mp hd with hd | hd
      · rw [(TokenDelta.done_eq_false.mp (hpre d hd)).2] at he
        cases he
      · exact List.mem_singleton.mp hd
    subst hd'
    rw [hevents,he]
    refine ⟨?_,hcancel (by rw [he]; rfl)⟩
    simp

theorem error_text_completes_iff_refused :
    Completes axum ⟨"chatcmpl-0",0,"moe"⟩
      (generateStream spoken always (.refused (some "overloaded"))).deltas :=
  (error_text_completes_iff axum_documented ⟨"chatcmpl-0",0,"moe"⟩ spoken (.refused (some "overloaded"))).mpr
    fun t ht => by cases ht; decide

theorem error_body_with_cr :
    ¬ Completes axum ⟨"chatcmpl-0",0,"moe"⟩ (generateStream spoken always
      (.refused (some "bad\r\ngateway"))).deltas := by
  intro h
  have hpanic : (streamChat axum ⟨"chatcmpl-0",0,"moe"⟩ (generateStream spoken always
      (.refused (some "bad\r\ngateway"))).deltas).panicked = true :=
    streamChat_panics axum_documented _ [] (by simp)
      (t := "engine HTTP error: bad\r\ngateway") rfl (by decide)
  rw [h.ran] at hpanic
  cases hpanic

end SglangLite.Control.Http
