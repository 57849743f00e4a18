import SglangLite.Chat.Parse

set_option autoImplicit false

namespace SglangLite.Chat

open JsonText Scan

section Marks

def Unmarked (t : Str) : Prop := ¬ dsmlToken <:+: t

instance (t : Str) : Decidable (Unmarked t) := inferInstanceAs (Decidable (¬ dsmlToken <:+: t))

theorem dsml_of_mem {s : Str} (hs : s ∈ [invokeStart,invokeEnd,parameterStart,parameterEnd,
    toolCallsStartToken,toolCallsEndToken]) : dsmlToken <:+: s := by
  revert s
  decide

theorem Unmarked.without {t s : Str} (h : Unmarked t) (hs : s ∈ [invokeStart,invokeEnd,parameterStart,
    parameterEnd,toolCallsStartToken,toolCallsEndToken]) : ¬ s <:+: t := fun hi =>
  h ((dsml_of_mem hs).trans hi)

def Foreign (t : Str) : Prop := ∀ x ∈ t, x ∉ dsmlToken

instance (t : Str) : Decidable (Foreign t) := List.decidableBAll (fun x => x ∉ dsmlToken) t

theorem Unmarked.append_left {a t : Str} (ha : Foreign a) (h : Unmarked t) : Unmarked (a ++ t) := fun hi =>
  h (infix_of_append_left (by decide) ha hi)

theorem Unmarked.append_right {a t : Str} (ha : Foreign a) (h : Unmarked t) : Unmarked (t ++ a) := fun hi =>
  h (infix_of_append_right (by decide) ha hi)

theorem Unmarked.cons {a t : Str} {x : Char} (hx : x ∉ dsmlToken) (ha : Unmarked a) (ht : Unmarked t) :
    Unmarked (a ++ x :: t) := fun hi => (infix_of_cons hx hi).elim ha ht

/-- How the marks stand to one another where one follows a text without marks. -/
theorem marks_apart : ∀ s ∈ [invokeStart,toolCallsEndToken], ∀ s' ∈ [invokeStart,toolCallsEndToken],
    Apart s' s ∧ (s' ≠ s → Differ s' s) := by decide

theorem parameter_marks_apart : ∀ s ∈ [parameterStart,invokeEnd], ∀ s' ∈ [parameterStart,invokeEnd],
    Apart s' s ∧ (s' ≠ s → Differ s' s) := by decide

end Marks

section Patterns

theorem ending_eq {s t : Str} (h : ending s t = some ()) : t = s ∨ t = s ++ ['\n'] := by
  unfold ending at h
  split at h
  · rename_i r hr
    split_ifs at h with hend
    have ht := eq_append_of_strip hr
    rcases Bool.or_eq_true _ _ ▸ hend with h' | h'
    · exact .inl (by rw [ht,of_decide_eq_true h',List.append_nil])
    · exact .inr (by rw [ht,of_decide_eq_true h'])
  · cases h

theorem ending_self {s t : Str} (ht : atEnd t = true) : ending s (s ++ t) = some () := by
  rw [ending,strip_append]
  exact if_pos ht

theorem ending_none {s t : Str} (h1 : t ≠ s) (h2 : t ≠ s ++ ['\n']) : ending s t = none := by
  cases h : ending s t with
  | none => rfl
  | some u => exact ((ending_eq h).elim h1 h2).elim

theorem closeMark_eq : closeMark = ['"','>'] := rfl

theorem toolNamePattern_text (name : Str) {last : Str} (hlast : last = [] ∨ last = ['\n']) :
    toolNamePattern (' ' :: nameMark ++ (name ++ ((closeMark ++ ['\n']) ++ last))) = some name := by
  have hdrop : (' ' :: nameMark ++ (name ++ ((closeMark ++ ['\n']) ++ last))).dropWhile isBlank =
      nameMark ++ (name ++ ((closeMark ++ ['\n']) ++ last)) := rfl
  have hlazy : lazy (ending (closeMark ++ ['\n'])) (name ++ ((closeMark ++ ['\n']) ++ last)) =
      some (name,()) := by
    refine lazy_hit (ending_self (by rcases hlast with rfl | rfl <;> rfl)) fun p hp => ?_
    rw [List.drop_append_of_le_length (Nat.le_of_lt hp)]
    have hpos : 0 < (name.drop p).length := by rw [List.length_drop]; omega
    refine ending_none (fun h => ?_) fun h => ?_
    · have := congrArg List.length h
      simp only [List.length_append] at this
      omega
    · have hlen := congrArg List.length h
      simp only [List.length_append,List.length_singleton] at hlen
      rcases hlast with rfl | rfl
      · obtain ⟨x,hx⟩ := List.length_eq_one_iff.mp
          (by rw [List.length_nil] at hlen; omega : (name.drop p).length = 1)
        rw [hx,closeMark_eq] at h
        exact absurd h (by simp)
      · rw [List.length_singleton] at hlen
        omega
  rw [toolNamePattern,hdrop,strip_append]
  simp only [hlazy,Option.map_some]

theorem valuePattern_text (value : Str) : valuePattern (value ++ ['<']) = some value := by
  have hlazy : lazy (ending ['<']) (value ++ ['<']) = some (value,()) := by
    refine lazy_hit (ending_self (t := []) rfl) fun p hp => ?_
    have hpos : 0 < (value.drop p).length := by rw [List.length_drop]; omega
    rw [List.drop_append_of_le_length (Nat.le_of_lt hp)]
    refine ending_none (fun h => ?_) fun h => ?_
    · have := congrArg List.length h
      simp only [List.length_append,List.length_singleton] at this
      omega
    · have hlast := congrArg List.getLast? h
      simp at hlast
  rw [valuePattern,hlazy]
  rfl

theorem flagPattern_text (isStr : Bool) (value : Str) :
    flagPattern ((flagText isStr ++ closeMark) ++ (value ++ ['<'])) = some (isStr,value) := by
  cases isStr with
  | true =>
    rw [flagPattern,strip_append]
    simp only [valuePattern_text,Option.map_some]
  | false =>
    have hno : strip (flagText true ++ closeMark) ((flagText false ++ closeMark) ++ (value ++ ['<'])) = none :=
      strip_head (by decide) _ _
    rw [flagPattern,hno,strip_append]
    simp only [valuePattern_text,Option.map_some]

/-- What stands between the name and the value of a parameter. -/
def flagMark (isStr : Bool) : Str := stringMark ++ (flagText isStr ++ closeMark)

theorem flagMark_of_flagPattern {t : Str} {r : Bool × Str} (h : flagPattern t = some r) :
    ∃ b v, t = (flagText b ++ closeMark) ++ v := by
  unfold flagPattern at h
  split at h
  · rename_i v hv
    exact ⟨true,v,eq_append_of_strip hv⟩
  · split at h
    · rename_i v hv
      exact ⟨false,v,eq_append_of_strip hv⟩
    · cases h

theorem flagMarks_apart : ∀ b b', Apart (flagMark b') (flagMark b) := by decide

theorem parameterPattern_text {key : Str} (hkey : ∀ b, ¬ flagMark b <:+: key) (isStr : Bool) (value : Str) :
    parameterPattern (' ' :: nameMark ++ (key ++ (flagMark isStr ++ (value ++ ['<'])))) =
      some (key,isStr,value) := by
  have hlazy : lazy (fun t => (strip stringMark t).bind flagPattern)
      (key ++ (flagMark isStr ++ (value ++ ['<']))) = some (key,isStr,value) := by
    refine lazy_hit ?_ fun p hp => ?_
    · rw [flagMark,List.append_assoc stringMark,strip_append,Option.bind_some,flagPattern_text]
    · refine Option.eq_none_iff_forall_ne_some.mpr fun r h => ?_
      obtain ⟨t,ht,hr⟩ := Option.bind_eq_some_iff.mp h
      obtain ⟨b,v,rfl⟩ := flagMark_of_flagPattern hr
      have hpre : flagMark b <+: (key ++ (flagMark isStr ++ (value ++ ['<']))).drop p := by
        refine ⟨v,?_⟩
        rw [eq_append_of_strip ht,flagMark,List.append_assoc]
      exact free_of_apart (hkey b) (flagMarks_apart isStr b) _ p hp hpre
  rw [parameterPattern,strip_append]
  exact hlazy

end Patterns

section Calls

/-- A parameter that the parser can take apart again. -/
structure Plain (p : Str × Bool × Str) : Prop where
  key : Unmarked p.1
  flag : ∀ b, ¬ flagMark b <:+: p.1
  value : Unmarked p.2.2

def parameterBody (p : Str × Bool × Str) : Str :=
  ' ' :: nameMark ++ (p.1 ++ (flagMark p.2.1 ++ (p.2.2 ++ ['<'])))

theorem unmarked_parameterBody {p : Str × Bool × Str} (h : Plain p) : Unmarked (parameterBody p) := by
  have hq : ∀ b, ∃ r, flagMark b = '"' :: r ∧ Foreign r := fun b =>
    ⟨(flagMark b).tail,by cases b <;> decide,by cases b <;> decide⟩
  obtain ⟨r,hr,hf⟩ := hq p.2.1
  refine Unmarked.append_left (by decide) ?_
  rw [hr,List.cons_append]
  exact h.key.cons (by decide) ((h.value.append_right (by decide)).append_left hf)

/-- The text of some parameters after the first mark, up to the end of the call
and what follows it. -/
def parametersText : List (Str × Bool × Str) → Str → Str
  | [], r => invokeEnd ++ r
  | p :: ps, r => parameterStart ++ (parameterBody p ++ (parameterEnd ++ (lineEnd ++ parametersText ps r)))

def firstMark (ps : List (Str × Bool × Str)) : Str := if ps = [] then invokeEnd else parameterStart

theorem firstMark_mem (ps : List (Str × Bool × Str)) : firstMark ps ∈ [parameterStart,invokeEnd] := by
  unfold firstMark
  split_ifs
  · exact List.mem_cons_of_mem _ List.mem_cons_self
  · exact List.mem_cons_self

def afterMark : List (Str × Bool × Str) → Str → Str
  | [], r => r
  | p :: ps, r => parameterBody p ++ (parameterEnd ++ (lineEnd ++ parametersText ps r))

theorem parametersText_split (ps : List (Str × Bool × Str)) (r : Str) :
    parametersText ps r = firstMark ps ++ afterMark ps r := by
  cases ps with
  | nil => rfl
  | cons p ps => rfl

theorem unmarked_lineEnd : Unmarked lineEnd := by decide

theorem readUntil_parameterEnd {p : Str × Bool × Str} (hp : Plain p) (r : Str) :
    readUntil [parameterEnd] (parameterBody p ++ (parameterEnd ++ r)) =
      (parameterBody p,some parameterEnd,r) := by
  refine readUntil_next List.mem_cons_self (by decide) (fun s hs => ?_) (by decide) _
  rw [List.mem_singleton.mp hs]
  exact (unmarked_parameterBody hp).without (by decide)

theorem readUntil_mark {c s : Str} (hc : Unmarked c) (hs : s ∈ [parameterStart,invokeEnd]) (r : Str) :
    readUntil [parameterStart,invokeEnd] (c ++ (s ++ r)) = (c,some s,r) := by
  refine readUntil_next hs ?_ (fun s' hs' => hc.without ?_) (parameter_marks_apart s hs) r
  · revert s
    decide
  · revert s'
    decide

theorem readUntil_parameters {c : Str} (hc : Unmarked c) (ps : List (Str × Bool × Str)) (r : Str) :
    readUntil [parameterStart,invokeEnd] (c ++ parametersText ps r) =
      (c,some (firstMark ps),afterMark ps r) := by
  rw [parametersText_split]
  exact readUntil_mark hc (firstMark_mem ps) _

theorem parseParameter_line {p : Str × Bool × Str} (hp : Plain p) {args : List (Str × Bool × Str)}
    (hnew : p.1 ∉ args.map Prod.fst) {t r : Str} {o : Option Str}
    (hread : readUntil [parameterStart,invokeEnd] (lineEnd ++ t) = (lineEnd,o,r)) :
    parseParameter args (parameterBody p ++ (parameterEnd ++ (lineEnd ++ t))) = .ok (args ++ [p],o,r) := by
  have hbody : readUntil [parameterEnd] (parameterBody p ++ (parameterEnd ++ (lineEnd ++ t))) =
      (parameterBody p,some parameterEnd,lineEnd ++ t) := readUntil_parameterEnd hp _
  have hdup : ¬ (args.any fun a => a.1 = p.1) = true := by
    rw [List.any_eq_true]
    rintro ⟨a,ha,hk⟩
    exact hnew (of_decide_eq_true hk ▸ List.mem_map_of_mem ha)
  have hpat : parameterPattern (parameterBody p) = some p := parameterPattern_text hp.flag p.2.1 p.2.2
  simp only [parseParameter,hbody,hpat,hread]
  rw [if_neg hdup,if_neg (not_not.mpr rfl)]

theorem parseParameter_text {p : Str × Bool × Str} (hp : Plain p) {args : List (Str × Bool × Str)}
    (hnew : p.1 ∉ args.map Prod.fst) (ps : List (Str × Bool × Str)) (r : Str) :
    parseParameter args (afterMark (p :: ps) r) =
      .ok (args ++ [p],some (firstMark ps),afterMark ps r) :=
  parseParameter_line hp hnew (readUntil_parameters unmarked_lineEnd ps r)

theorem firstMark_ne {ps : List (Str × Bool × Str)} (h : ps = []) : some (firstMark ps) ≠ some parameterStart := by
  subst h
  decide

theorem parseParameters_text {ps : List (Str × Bool × Str)} (hps : ∀ p ∈ ps, Plain p)
    (args : List (Str × Bool × Str)) (hkeys : ((args ++ ps).map Prod.fst).Nodup) (r : Str) :
    parseParameters args (some (firstMark ps)) (afterMark ps r) = .ok (args ++ ps,some invokeEnd,r) := by
  induction ps generalizing args with
  | nil =>
    rw [parseParameters_done (firstMark_ne rfl),List.append_nil]
    rfl
  | cons p ps ih =>
    have hnew : p.1 ∉ args.map Prod.fst := fun h => by
      rw [List.map_append] at hkeys
      exact List.disjoint_of_nodup_append hkeys h (List.mem_map_of_mem List.mem_cons_self)
    have hrest : args ++ p :: ps = (args ++ [p]) ++ ps := by rw [List.append_assoc]; rfl
    rw [hrest] at hkeys ⊢
    have hstep := parseParameter_text (hps p List.mem_cons_self) hnew ps r
    have hmark : firstMark (p :: ps) = parameterStart := rfl
    rw [hmark,parseParameters_step hstep]
    exact ih (fun q hq => hps q (List.mem_cons_of_mem _ hq)) _ hkeys

abbrev Call := Str × List (Str × Bool × Str)

def invokeText (c : Call) (r : Str) : Str :=
  ' ' :: nameMark ++ (c.1 ++ ((closeMark ++ ['\n']) ++
    ((if c.2 = [] then ['\n'] else []) ++ parametersText c.2 r)))

structure PlainCall (c : Call) : Prop where
  name : Unmarked c.1
  params : ∀ p ∈ c.2, Plain p
  keys : (c.2.map Prod.fst).Nodup

def headText (c : Call) : Str :=
  ' ' :: nameMark ++ (c.1 ++ ((closeMark ++ ['\n']) ++ if c.2 = [] then ['\n'] else []))

theorem invokeText_split (c : Call) (r : Str) : invokeText c r = headText c ++ parametersText c.2 r := by
  simp only [invokeText,headText,List.append_assoc,List.cons_append]

theorem last_or (ps : List (Str × Bool × Str)) :
    (if ps = [] then ['\n'] else ([] : Str)) = [] ∨ (if ps = [] then ['\n'] else ([] : Str)) = ['\n'] := by
  split_ifs
  · exact .inr rfl
  · exact .inl rfl

theorem foreign_closing {last : Str} (h : last = [] ∨ last = ['\n']) : Foreign ((closeMark ++ ['\n']) ++ last) := by
  rcases h with rfl | rfl <;> decide

theorem PlainCall.unmarked_headText {c : Call} (hc : PlainCall c) : Unmarked (headText c) :=
  (hc.name.append_right (foreign_closing (last_or c.2))).append_left (by decide)

theorem toolNamePattern_headText (c : Call) : toolNamePattern (headText c) = some c.1 :=
  toolNamePattern_text c.1 (last_or c.2)

theorem parseInvoke_text {c : Call} (hc : PlainCall c) (r : Str) :
    parseInvoke (invokeText c r) = .ok ((c.1,decodeDsmlToArguments c.2),some invokeEnd,r) := by
  have hread : readUntil [parameterStart,invokeEnd] (invokeText c r) =
      (headText c,some (firstMark c.2),afterMark c.2 r) := by
    rw [invokeText_split]
    exact readUntil_parameters hc.unmarked_headText c.2 r
  have hparams := parseParameters_text hc.params [] (by simpa using hc.keys) r
  simp only [parseInvoke,hread,toolNamePattern_headText,hparams,Except.map,List.nil_append]

def callsText : List Call → Str → Str
  | [], r => r
  | c :: cs, r => lineEnd ++ (invokeStart ++ invokeText c (callsText cs r))

theorem readUntil_line {s : Str} (hs : s ∈ [invokeStart,toolCallsEndToken]) (r : Str) :
    readUntil [invokeStart,toolCallsEndToken] (lineEnd ++ (s ++ r)) = (lineEnd,some s,r) := by
  refine readUntil_next hs ?_ (fun s' hs' => unmarked_lineEnd.without ?_) (marks_apart s hs) r
  · revert s
    decide
  · revert s'
    decide

theorem parseToolCalls_invoke (calls : List (Str × Str)) (stop : Option Str) (t : Str) :
    parseToolCalls calls stop (lineEnd ++ (invokeStart ++ t)) =
      match parseInvoke t with
      | .error e => .error e
      | .ok p => parseToolCalls (calls ++ [p.1]) p.2.1 p.2.2 := by
  have hne : lineEnd ++ (invokeStart ++ t) ≠ [] := List.cons_ne_nil _ _
  have hread := readUntil_line (s := invokeStart) List.mem_cons_self t
  have hstart : some invokeStart ≠ some toolCallsEndToken := by decide
  rw [parseToolCalls,if_neg hne]
  simp only [hread]
  rw [if_neg (not_not.mpr rfl),if_neg hstart,dif_neg (Option.some_ne_none _)]
  split
  · rename_i e he; rw [hread] at he; rw [he]
  · rename_i q hq; rw [hread] at hq; rw [hq]

theorem parseToolCalls_call {t : Str} {p : (Str × Str) × Option Str × Str} (h : parseInvoke t = .ok p)
    (calls : List (Str × Str)) (stop : Option Str) :
    parseToolCalls calls stop (lineEnd ++ (invokeStart ++ t)) = parseToolCalls (calls ++ [p.1]) p.2.1 p.2.2 := by
  rw [parseToolCalls_invoke,h]

theorem parseToolCalls_refused {t : Str} {e : ParseError} (h : parseInvoke t = .error e)
    (calls : List (Str × Str)) (stop : Option Str) :
    parseToolCalls calls stop (lineEnd ++ (invokeStart ++ t)) = .error e := by
  rw [parseToolCalls_invoke,h]

/-- The calls are read one after the other; what follows them is read as if they
had been read before. -/
theorem parseToolCalls_text {cs : List Call} (hcs : ∀ c ∈ cs, PlainCall c) (calls : List (Str × Str))
    (stop : Option Str) (r : Str) :
    parseToolCalls calls stop (callsText cs r) =
      parseToolCalls (calls ++ cs.map fun c => (c.1,decodeDsmlToArguments c.2))
        (if cs = [] then stop else some invokeEnd) r := by
  induction cs generalizing calls stop with
  | nil => rw [callsText,List.map_nil,List.append_nil,if_pos rfl]
  | cons c cs ih =>
    have hinvoke := parseInvoke_text (hcs c List.mem_cons_self) (callsText cs r)
    rw [callsText,parseToolCalls_call hinvoke,ih fun d hd => hcs d (List.mem_cons_of_mem _ hd),
      if_neg (List.cons_ne_nil c cs),List.map_cons,List.append_assoc,List.singleton_append]
    by_cases hnil : cs = []
    · rw [if_pos hnil]
    · rw [if_neg hnil]

theorem parseToolCalls_end (calls : List (Str × Str)) (stop : Option Str) (r : Str) :
    parseToolCalls calls stop (lineEnd ++ (toolCallsEndToken ++ r)) =
      .ok (calls,some toolCallsEndToken,r) := by
  have hne : lineEnd ++ (toolCallsEndToken ++ r) ≠ [] := List.cons_ne_nil _ _
  rw [parseToolCalls,if_neg hne]
  simp only [readUntil_line (List.mem_cons_of_mem _ List.mem_cons_self) r]
  rw [if_neg (not_not.mpr rfl),if_pos trivial]

end Calls

section Written

theorem parametersText_append (ps : List (Str × Bool × Str)) (r r' : Str) :
    parametersText ps (r ++ r') = parametersText ps r ++ r' := by
  induction ps with
  | nil => rw [parametersText,parametersText,List.append_assoc]
  | cons p ps ih => simp only [parametersText,ih,List.append_assoc]

theorem invokeText_append (c : Call) (r r' : Str) : invokeText c (r ++ r') = invokeText c r ++ r' := by
  simp only [invokeText,parametersText_append,List.append_assoc]

def parameterText (p : Str × Bool × Str) : Str := paramText p.1 p.2.2 p.2.1

theorem parameterText_eq (p : Str × Bool × Str) :
    parameterText p = parameterStart ++ (parameterBody p ++ (parameterEnd ++ ['>'])) := by
  have h1 : "parameter ".toList = "parameter".toList ++ [' '] := rfl
  have h2 : "parameter>".toList = "parameter".toList ++ ['>'] := rfl
  have h3 : "</".toList = ['<','/'] := rfl
  simp only [parameterText,paramText,parameterStart,parameterBody,parameterEnd,flagMark,h1,h2,h3,
    List.append_assoc,List.cons_append,List.nil_append]

theorem lineEnd_eq : lineEnd = ['>','\n'] := rfl

theorem parameters_written {ps : List (Str × Bool × Str)} (hps : ps ≠ []) (r : Str) :
    ['\n'].intercalate (ps.map parameterText) ++ '\n' :: (invokeEnd ++ r) = parametersText ps r := by
  induction ps with
  | nil => exact absurd rfl hps
  | cons p ps ih =>
    cases ps with
    | nil =>
      simp only [List.map_cons,List.map_nil,List.intercalate_singleton,parameterText_eq,parametersText,
        lineEnd_eq,List.append_assoc,List.cons_append,List.nil_append]
    | cons q ps =>
      have hrest := ih (List.cons_ne_nil q ps)
      rw [List.map_cons] at hrest
      rw [List.map_cons,List.map_cons,List.intercalate_cons_cons,parametersText,← hrest,parameterText_eq p]
      simp only [lineEnd_eq,List.append_assoc,List.cons_append,List.nil_append]

def callText (c : Call) : Str := toolCallText c.1 (['\n'].intercalate (c.2.map parameterText))

theorem callText_eq (c : Call) : callText c = invokeStart ++ invokeText c ['>'] := by
  have h1 : "invoke ".toList = "invoke".toList ++ [' '] := rfl
  have h2 : "invoke>".toList = "invoke".toList ++ ['>'] := rfl
  have h3 : "\n</".toList = '\n' :: "</".toList := rfl
  have hargs : ['\n'].intercalate (c.2.map parameterText) ++ '\n' :: (invokeEnd ++ ['>']) =
      (if c.2 = [] then ['\n'] else []) ++ parametersText c.2 ['>'] := by
    split_ifs with h
    · rw [h]
      rfl
    · exact parameters_written h ['>']
  rw [invokeText,← hargs]
  simp only [callText,toolCallText,invokeStart,invokeEnd,h1,h2,h3,List.append_assoc,List.cons_append,
    List.nil_append]

theorem calls_written {cs : List Call} (hcs : cs ≠ []) (r : Str) :
    lineEnd ++ (['\n'].intercalate (cs.map callText) ++ '\n' :: r) = callsText cs (lineEnd ++ r) := by
  induction cs with
  | nil => exact absurd rfl hcs
  | cons c cs ih =>
    cases cs with
    | nil =>
      have htail : ['>'] ++ '\n' :: r = lineEnd ++ r := rfl
      rw [List.map_cons,List.map_nil,List.intercalate_singleton,callText_eq,callsText,callsText,← htail,
        invokeText_append,List.append_assoc]
    | cons d cs =>
      have hrest := ih (List.cons_ne_nil d cs)
      have hhead : callsText (d :: cs) (lineEnd ++ r) = ['>'] ++ '\n' ::
          (['\n'].intercalate ((d :: cs).map callText) ++ '\n' :: r) := by rw [← hrest]; rfl
      rw [callsText,hhead,invokeText_append,List.map_cons,List.map_cons,List.intercalate_cons_cons,callText_eq]
      simp only [List.append_assoc,List.cons_append,List.nil_append]

theorem toolCalls_written {cs : List Call} (hcs : cs ≠ []) (r : Str) :
    "\n\n".toList ++ (toolCallsText (cs.map callText) ++ r) =
      toolCallsStartToken ++ callsText cs (lineEnd ++ (toolCallsEndToken ++ r)) := by
  have h1 : "tool_calls>\n".toList = "tool_calls".toList ++ lineEnd := rfl
  have h2 : "\n</".toList = '\n' :: "</".toList := rfl
  have h3 : "\n\n<".toList = "\n\n".toList ++ ['<'] := rfl
  rw [← calls_written hcs]
  simp only [toolCallsText,toolCallsStartToken,toolCallsEndToken,h1,h2,h3,List.append_assoc,List.cons_append,
    List.nil_append]

end Written

section Answers

/-- The text has none of the tokens that the parser forbids. -/
def Clean (t : Str) : Prop := ∀ s ∈ specialTokens, ¬ s <:+: t

theorem Clean.unmarked {t : Str} (h : Clean t) : Unmarked t := h dsmlToken (by decide)

theorem content_marks_apart : ∀ s ∈ [eosToken,toolCallsStartToken], ∀ s' ∈ [eosToken,toolCallsStartToken],
    Apart s' s ∧ (s' ≠ s → Differ s' s) := by decide

theorem reasoning_marks_apart : ∀ s' ∈ [thinkingEndToken,toolCallsStartToken],
    Apart s' thinkingEndToken ∧ (s' ≠ thinkingEndToken → Differ s' thinkingEndToken) := by decide

def reasoningText (mode : Mode) (reasoning : Str) : Str :=
  if mode = .thinking then reasoning ++ thinkingEndToken else []

theorem readUntil_reasoning {reasoning : Str} (h : Clean reasoning) (t : Str) :
    readUntil [thinkingEndToken,toolCallsStartToken] (reasoning ++ (thinkingEndToken ++ t)) =
      (reasoning,some thinkingEndToken,t) := by
  refine readUntil_next List.mem_cons_self (by decide) (fun s hs => ?_) reasoning_marks_apart t
  rcases List.mem_cons.mp hs with rfl | hs
  · exact h _ (by decide)
  · exact h.unmarked.without (by rw [List.mem_singleton.mp hs]; decide)

theorem readReasoning_text {reasoning : Str} (h : Clean reasoning) (mode : Mode) (t : Str) :
    readReasoning mode (reasoningText mode reasoning ++ t) =
      .ok (if mode = .thinking then reasoning else [],t) := by
  cases mode with
  | chat => rfl
  | thinking =>
    rw [reasoningText,if_pos rfl,List.append_assoc,readReasoning,if_pos rfl,readUntil_reasoning h]
    rfl

theorem readUntil_content {content : Str} (h : Clean content) {s : Str}
    (hs : s ∈ [eosToken,toolCallsStartToken]) (r : Str) :
    readUntil [eosToken,toolCallsStartToken] (content ++ (s ++ r)) = (content,some s,r) := by
  refine readUntil_next hs (by revert s; decide) (fun s' hs' => ?_) (content_marks_apart s hs) r
  rcases List.mem_cons.mp hs' with rfl | hs'
  · exact h _ (by decide)
  · exact h.unmarked.without (by rw [List.mem_singleton.mp hs']; decide)

theorem readAnswer_plain {content : Str} (h : Clean content) (r : Str) :
    readAnswer (content ++ (eosToken ++ r)) = .ok (content,[],r) := by
  have hno : some eosToken ≠ some toolCallsStartToken := by decide
  simp only [readAnswer,readUntil_content h List.mem_cons_self r]
  rw [if_neg hno,if_pos trivial]

def readCalls (cs : List Call) : List (Str × Str) := cs.map fun c => (c.1,decodeDsmlToArguments c.2)

theorem readAnswer_of_calls {content : Str} (h : Clean content) {t e : Str} {calls : List (Str × Str)}
    {stop : Option Str} (hparse : parseToolCalls [] none t = .ok (calls,stop,e)) (he : e = [] ∨ e = eosToken) :
    readAnswer (content ++ (toolCallsStartToken ++ t)) = .ok (content,calls,[]) := by
  obtain ⟨h1,h2⟩ : (readUntil [eosToken] e).1 = [] ∧ (readUntil [eosToken] e).2.2 = [] := by
    rcases he with rfl | rfl <;> decide
  simp only [readAnswer,readUntil_content h (List.mem_cons_of_mem _ List.mem_cons_self),hparse,
    if_true,ok_bind,h1,h2]
  rfl

theorem readAnswer_calls {content : Str} (h : Clean content) {cs : List Call} (hcs : ∀ c ∈ cs, PlainCall c) :
    readAnswer (content ++ (toolCallsStartToken ++ callsText cs (lineEnd ++ (toolCallsEndToken ++ eosToken)))) =
      .ok (content,readCalls cs,[]) := by
  have hparse : parseToolCalls [] none (callsText cs (lineEnd ++ (toolCallsEndToken ++ eosToken))) =
      .ok (readCalls cs,some toolCallsEndToken,eosToken) := by
    rw [parseToolCalls_text hcs,List.nil_append]
    exact parseToolCalls_end _ _ _
  exact readAnswer_of_calls h hparse (.inr rfl)

theorem parse_of_parts {F : Type} {mode : Mode} {reasoning content t : Str} {calls : List (Str × Str)}
    (hr : Clean reasoning) (hc : Clean content) (ht : readAnswer t = .ok (content,calls,[])) :
    parseMessageFromCompletionText F (reasoningText mode reasoning ++ t) mode =
      .ok { role := .assistant, content := .text content
            reasoningContent := if mode = .thinking then reasoning else []
            toolCalls := calls.map fun c => { name := c.1, arguments := c.2 } } := by
  have hempty : ∀ s ∈ specialTokens, ¬ s <:+: ([] : Str) := by decide
  have hfind : (specialTokens.find? fun s => s <:+: content ||
      s <:+: (if mode = .thinking then reasoning else [])) = none := by
    refine List.find?_eq_none.mpr fun s hs hany => ?_
    rcases Bool.or_eq_true _ _ ▸ hany with h | h
    · exact hc s hs (of_decide_eq_true h)
    · split_ifs at h
      · exact hr s hs (of_decide_eq_true h)
      · exact hempty s hs (of_decide_eq_true h)
  simp only [parseMessageFromCompletionText,readReasoning_text hr,ht,ok_bind,hfind]
  rfl

end Answers

end SglangLite.Chat
