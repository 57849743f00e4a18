import SglangLite.Chat.Reply

set_option autoImplicit false

namespace SglangLite.Chat

open JsonText Scan

section Places

def linesText : List (Str × Bool × Str) → Str
  | [] => []
  | p :: ps => parameterStart ++ (parameterBody p ++ (parameterEnd ++ (lineEnd ++ linesText ps)))

/-- The places within a call at which the parser takes it for complete, with the
call that it then has: after `">` and a newline in its first line, without
parameters, and after the line of any parameter, with the parameters up to there. -/
inductive CutCall (c : Call) : Str → Call → Prop
  | head (name last : Str) (hlast : last = [] ∨ last = ['\n'])
      (h : ' ' :: nameMark ++ (name ++ ((closeMark ++ ['\n']) ++ last)) <+: headText c) :
      CutCall c (' ' :: nameMark ++ (name ++ ((closeMark ++ ['\n']) ++ last))) (name,[])
  | lines (j : Nat) (hj : j < c.2.length) :
      CutCall c (headText c ++ linesText (c.2.take (j+1))) (c.1,c.2.take (j+1))

/-- The places within the calls of a completion at which the parser takes it for
complete, with the calls that it then has: before the `>` that ends the mark of
the calls or a closing tag, within a call as above, and after the end of the
calls, with or without the end of the sentence. -/
inductive CutCalls : List Call → Str → List Call → Prop
  | stop (cs : List Call) : CutCalls cs [] []
  | within {c d : Call} {t : Str} (cs : List Call) (h : CutCall c t d) :
      CutCalls (c :: cs) (lineEnd ++ (invokeStart ++ t)) [d]
  | call {cs ds : List Call} {t : Str} (c : Call) (h : CutCalls cs t ds) :
      CutCalls (c :: cs) (lineEnd ++ (invokeStart ++ invokeText c t)) (c :: ds)
  | close {e : Str} (he : e = [] ∨ e = eosToken) : CutCalls [] (lineEnd ++ (toolCallsEndToken ++ e)) []

end Places

section Marks

theorem newline_notMem : ∀ s ∈ [parameterStart,invokeEnd], '\n' ∉ s := by decide

theorem marks_whole : ∀ s ∈ [parameterStart,invokeEnd], ∀ s' ∈ [parameterStart,invokeEnd],
    ¬ s' <:+: s.dropLast := by decide

theorem call_marks_whole : ∀ s ∈ [invokeStart,toolCallsEndToken], ∀ s' ∈ [invokeStart,toolCallsEndToken],
    ¬ s' <:+: s.dropLast := by decide

theorem content_marks_whole : ∀ s ∈ [eosToken,toolCallsStartToken], ∀ s' ∈ [eosToken,toolCallsStartToken],
    ¬ s' <:+: s.dropLast := by decide

end Marks

section Read

theorem readUntil_unmarked {stops : List Str} {t : Str} (ht : Unmarked t) (h : ∀ s ∈ stops, dsmlToken <:+: s) :
    readUntil stops t = (t,none,[]) :=
  readUntil_miss fun s hs hi => ht ((h s hs).trans hi)

theorem parseParameters_lines {p : Str × Bool × Str} {ps : List (Str × Bool × Str)}
    (hps : ∀ q ∈ p :: ps, Plain q) (args : List (Str × Bool × Str))
    (hkeys : ((args ++ p :: ps).map Prod.fst).Nodup) :
    parseParameters args (some parameterStart)
      (parameterBody p ++ (parameterEnd ++ (lineEnd ++ linesText ps))) = .ok (args ++ p :: ps,none,[]) := by
  induction ps generalizing p args with
  | nil =>
    have hnew : p.1 ∉ args.map Prod.fst := fun h => by
      rw [List.map_append] at hkeys
      exact List.disjoint_of_nodup_append hkeys h (List.mem_map_of_mem List.mem_cons_self)
    have hline : readUntil [parameterStart,invokeEnd] (lineEnd ++ linesText []) = (lineEnd,none,[]) :=
      readUntil_unmarked unmarked_lineEnd (by decide)
    rw [parseParameters_step (parseParameter_line (hps p List.mem_cons_self) hnew hline)]
    exact parseParameters_done (Option.some_ne_none _).symm
  | cons q ps ih =>
    have hnew : p.1 ∉ args.map Prod.fst := fun h => by
      rw [List.map_append] at hkeys
      exact List.disjoint_of_nodup_append hkeys h (List.mem_map_of_mem List.mem_cons_self)
    have hline : readUntil [parameterStart,invokeEnd] (lineEnd ++ linesText (q :: ps)) =
        (lineEnd,some parameterStart,parameterBody q ++ (parameterEnd ++ (lineEnd ++ linesText ps))) :=
      readUntil_mark unmarked_lineEnd List.mem_cons_self _
    rw [parseParameters_step (parseParameter_line (hps p List.mem_cons_self) hnew hline)]
    have hrest : args ++ p :: q :: ps = (args ++ [p]) ++ q :: ps := by rw [List.append_assoc]; rfl
    rw [hrest] at hkeys ⊢
    exact ih (fun r hr => hps r (List.mem_cons_of_mem _ hr)) _ hkeys

theorem parseInvoke_cut {c d : Call} (hc : PlainCall c) {t : Str} (h : CutCall c t d) :
    parseInvoke t = .ok ((d.1,decodeDsmlToArguments d.2),none,[]) := by
  cases h with
  | head name last hlast hpre =>
    have hread : readUntil [parameterStart,invokeEnd] _ = (_,none,[]) :=
      readUntil_unmarked (fun hi => hc.unmarked_headText (hi.trans hpre.isInfix)) (by decide)
    simp only [parseInvoke,hread,toolNamePattern_text name hlast]
    rw [parseParameters_done (Option.some_ne_none _).symm]
    rfl
  | lines j hj =>
    obtain ⟨p,ps,hps⟩ : ∃ p ps, c.2.take (j+1) = p :: ps := by
      cases hparams : c.2 with
      | nil => rw [hparams] at hj; exact absurd hj (Nat.not_lt_zero j)
      | cons p ps => exact ⟨p,ps.take j,rfl⟩
    have hmem : ∀ q ∈ p :: ps, Plain q := fun q hq => hc.params q (List.mem_of_mem_take (hps ▸ hq))
    have hkeys : (([] ++ p :: ps).map Prod.fst).Nodup := by
      rw [List.nil_append,← hps,List.map_take]
      exact hc.keys.sublist (List.take_sublist _ _)
    have hread : readUntil [parameterStart,invokeEnd] (headText c ++ linesText (p :: ps)) =
        (headText c,some parameterStart,parameterBody p ++ (parameterEnd ++ (lineEnd ++ linesText ps))) :=
      readUntil_mark hc.unmarked_headText List.mem_cons_self _
    rw [hps]
    simp only [parseInvoke,hread,toolNamePattern_headText,parseParameters_lines hmem [] hkeys,Except.map,
      List.nil_append]

theorem parseToolCalls_cut {cs ds : List Call} (hcs : ∀ c ∈ cs, PlainCall c) {t : Str} (h : CutCalls cs t ds)
    (calls : List (Str × Str)) (stop : Option Str) :
    ∃ stop' e, parseToolCalls calls stop t = .ok (calls ++ readCalls ds,stop',e) ∧ (e = [] ∨ e = eosToken) := by
  induction h generalizing calls stop with
  | stop cs =>
    rw [parseToolCalls,if_pos rfl,readCalls,List.map_nil,List.append_nil]
    exact ⟨_,_,rfl,.inl rfl⟩
  | @within c d t cs hd =>
    have hinvoke := parseInvoke_cut (hcs c List.mem_cons_self) hd
    refine ⟨none,[],?_,.inl rfl⟩
    rw [parseToolCalls_call hinvoke,parseToolCalls,if_pos rfl]
    rfl
  | @call cs ds t c _ ih =>
    have hinvoke := parseInvoke_text (hcs c List.mem_cons_self) t
    obtain ⟨stop',e,hparse,he⟩ := ih (fun d hd => hcs d (List.mem_cons_of_mem _ hd))
      (calls ++ [(c.1,decodeDsmlToArguments c.2)]) (some invokeEnd)
    refine ⟨stop',e,?_,he⟩
    rw [parseToolCalls_call hinvoke,hparse,List.append_assoc]
    rfl
  | close he =>
    rw [parseToolCalls_end,readCalls,List.map_nil,List.append_nil]
    exact ⟨_,_,rfl,he⟩

end Read

section Refused

/-- What a beginning of a parameter and of what follows it is read as: it goes at
least to the end of the line of the parameter. -/
theorem parseParameter_begun {p : Str × Bool × Str} (hp : Plain p) {ps : List (Str × Bool × Str)}
    {args : List (Str × Bool × Str)} {t r : Str} (ht : t <+: afterMark (p :: ps) r)
    {x : List (Str × Bool × Str) × Option Str × Str} (h : parseParameter args t = .ok x) :
    ∃ t', t = parameterBody p ++ (parameterEnd ++ (lineEnd ++ t')) ∧
      (t' = [] ∧ x.2 = (none,[]) ∨
        ∃ u, u <+: afterMark ps r ∧ t' = firstMark ps ++ u ∧ x.2 = (some (firstMark ps),u)) := by
  have hlineEnd : lineEnd ≠ [] := by decide
  simp only [parseParameter] at h
  rcases readUntil_cut (readUntil_parameterEnd hp) (by decide) ht with ⟨hmiss,_⟩ | ⟨u,hu,rfl,hread⟩
  · -- the value is not closed: after it nothing is left, not even the end of a line
    have hempty : readUntil [parameterStart,invokeEnd] [] = ([],none,[]) := by decide
    simp only [hmiss,hempty] at h
    split at h
    · cases h
    · rw [if_pos hlineEnd.symm] at h
      split_ifs at h
  · rw [hread] at h
    simp only at h
    split at h
    · cases h
    split_ifs at h with hdup hline
    rw [not_not] at hline
    rw [parametersText_split] at hu
    rcases readUntil_cut (readUntil_mark unmarked_lineEnd (firstMark_mem ps)) (marks_whole _ (firstMark_mem ps))
        hu with ⟨hmiss,_⟩ | ⟨v,hv,rfl,hread'⟩
    · rw [hmiss] at h hline
      cases h
      refine ⟨[],?_,.inl ⟨rfl,rfl⟩⟩
      rw [List.append_nil]
      exact congrArg (fun l => parameterBody p ++ (parameterEnd ++ l)) hline
    · rw [hread'] at h
      cases h
      exact ⟨_,rfl,.inr ⟨v,hv,rfl,rfl⟩⟩

/-- Of a beginning of parameters only whole lines are read. -/
theorem parseParameters_begun {ps : List (Str × Bool × Str)} (hps : ∀ p ∈ ps, Plain p)
    {args : List (Str × Bool × Str)} {t r : Str} (ht : t <+: afterMark ps r)
    {x : List (Str × Bool × Str) × Option Str × Str}
    (h : parseParameters args (some (firstMark ps)) t = .ok x) :
    (∃ j < ps.length, firstMark ps ++ t = linesText (ps.take (j+1)) ∧ x.2 = (none,[])) ∨
      ∃ u, u <+: r ∧ t = afterMark ps u ∧ x.2 = (some invokeEnd,u) := by
  induction ps generalizing args t with
  | nil =>
    rw [parseParameters_done (firstMark_ne rfl)] at h
    cases h
    exact .inr ⟨t,ht,rfl,rfl⟩
  | cons p ps ih =>
    cases hone : parseParameter args t with
    | error e => rw [show firstMark (p :: ps) = parameterStart from rfl,parseParameters_refused hone] at h; cases h
    | ok y =>
      rw [show firstMark (p :: ps) = parameterStart from rfl,parseParameters_step hone] at h
      obtain ⟨t',rfl,⟨rfl,hy⟩ | ⟨u,hu,rfl,hy⟩⟩ := parseParameter_begun (hps p List.mem_cons_self) ht hone
      · rw [hy,parseParameters_done (Option.some_ne_none _).symm] at h
        cases h
        exact .inl ⟨0,Nat.zero_lt_succ _,rfl,rfl⟩
      · rw [hy] at h
        rcases ih (fun q hq => hps q (List.mem_cons_of_mem _ hq)) hu h with ⟨j,hj,hlines,hx⟩ | ⟨v,hv,rfl,hx⟩
        · refine .inl ⟨j+1,Nat.succ_lt_succ hj,?_,hx⟩
          rw [List.take_succ_cons,linesText,← hlines]
          rfl
        · refine .inr ⟨v,hv,?_,hx⟩
          rw [afterMark,parametersText_split]

theorem toolNamePattern_some {t name : Str} (h : toolNamePattern t = some name) :
    ∃ last, (last = [] ∨ last = ['\n']) ∧
      t.dropWhile isBlank = nameMark ++ (name ++ ((closeMark ++ ['\n']) ++ last)) := by
  unfold toolNamePattern at h
  cases hs : strip nameMark (t.dropWhile isBlank) with
  | none => rw [hs] at h; cases h
  | some r =>
    rw [hs] at h
    obtain ⟨⟨n,u⟩,hl,h⟩ := Option.map_eq_some_iff.mp h
    cases h
    obtain ⟨r',hr,hend⟩ := lazy_some hl
    rw [eq_append_of_strip hs,hr]
    rcases ending_eq hend with rfl | rfl
    · exact ⟨[],.inl rfl,by rw [List.append_nil]⟩
    · exact ⟨['\n'],.inr rfl,rfl⟩

theorem headText_begun {c : Call} {t r : Str} (ht : t <+: headText c ++ (firstMark c.2 ++ r))
    (hlen : t.length < (headText c).length+(firstMark c.2).length) {name : Str}
    (h : toolNamePattern t = some name) : CutCall c t (name,[]) := by
  obtain ⟨last,hlast,hdrop⟩ := toolNamePattern_some h
  have htext : t = ' ' :: nameMark ++ (name ++ ((closeMark ++ ['\n']) ++ last)) := by
    obtain ⟨y,hy⟩ := ht
    match t, hy, hdrop with
    | [], _, hdrop => cases hdrop
    | [a], hy, hdrop =>
      cases (List.cons.inj hy).1
      cases hdrop
    | a :: b :: t, hy, hdrop =>
      cases (List.cons.inj hy).1
      cases (List.cons.inj (List.cons.inj hy).2).1
      exact congrArg (List.cons ' ') hdrop
  have hnewline : t.getLast? = some '\n' := by
    obtain ⟨w,hw⟩ : ∃ w, t = w ++ ['\n'] := by
      rcases hlast with rfl | rfl
      · exact ⟨' ' :: nameMark ++ (name ++ closeMark),by rw [htext]; simp⟩
      · exact ⟨' ' :: nameMark ++ (name ++ (closeMark ++ ['\n'])),by rw [htext]; simp⟩
    rw [hw,List.getLast?_concat]
  have hpre : t <+: headText c := by
    rcases Nat.lt_or_ge (headText c).length t.length with hlt | hge
    · -- it would end within the mark, which has no newline
      obtain ⟨q,rfl⟩ := List.prefix_of_prefix_length_le (List.prefix_append _ _) ht (Nat.le_of_lt hlt)
      rw [List.prefix_append_right_inj] at ht
      rw [List.length_append] at hlt hlen
      have hq : q <+: firstMark c.2 :=
        List.prefix_of_prefix_length_le ht (List.prefix_append _ _) (by omega)
      have hne : q ≠ [] := List.ne_nil_of_length_pos (by omega)
      rw [List.getLast?_append_of_ne_nil _ hne] at hnewline
      exact absurd (hq.subset (List.mem_of_getLast? hnewline)) (newline_notMem _ (firstMark_mem c.2))
    · exact List.prefix_of_prefix_length_le ht (List.prefix_append _ _) hge
  rw [htext] at hpre ⊢
  exact .head name last hlast hpre

/-- Of a beginning of a call the parser reads a call at its places only. -/
theorem parseInvoke_begun {c : Call} (hc : PlainCall c) {t r : Str} (ht : t <+: invokeText c r)
    {x : (Str × Str) × Option Str × Str} (h : parseInvoke t = .ok x) :
    (∃ d, CutCall c t d ∧ x.2 = (none,[])) ∨ ∃ u, u <+: r ∧ t = invokeText c u ∧ x.2 = (some invokeEnd,u) := by
  rw [invokeText_split,parametersText_split] at ht
  simp only [parseInvoke] at h
  rcases readUntil_cut (readUntil_mark hc.unmarked_headText (firstMark_mem c.2))
      (marks_whole _ (firstMark_mem c.2)) ht with ⟨hmiss,hlen⟩ | ⟨u,hu,rfl,hread⟩
  · rw [hmiss] at h
    split at h
    · cases h
    · rename_i name hname
      rw [parseParameters_done (Option.some_ne_none _).symm] at h
      cases h
      exact .inl ⟨_,headText_begun ht hlen hname,rfl⟩
  · rw [hread] at h
    simp only [toolNamePattern_headText] at h
    cases hparams : parseParameters [] (some (firstMark c.2)) u with
    | error e => rw [hparams] at h; cases h
    | ok y =>
      rw [hparams] at h
      cases h
      rcases parseParameters_begun hc.params hu hparams with ⟨j,hj,hlines,hx⟩ | ⟨v,hv,rfl,hx⟩
      · rw [hlines]
        exact .inl ⟨_,.lines j hj,hx⟩
      · refine .inr ⟨v,hv,?_,hx⟩
        rw [invokeText_split,parametersText_split]

theorem parseToolCalls_unended (calls : List (Str × Str)) (stop : Option Str) {t : Str} (hne : t ≠ [])
    (h : readUntil [invokeStart,toolCallsEndToken] t = (t,none,[])) :
    ∃ e, parseToolCalls calls stop t = .error e := by
  have hnone : ¬ none = some toolCallsEndToken := by decide
  rw [parseToolCalls,if_neg hne]
  simp only [h]
  rw [if_neg hnone,dif_pos trivial]
  split_ifs
  · exact ⟨_,rfl⟩
  · exact ⟨_,rfl⟩

/-- The calls that are read of a beginning of some calls are those at one of the
places. -/
theorem parseToolCalls_begun {cs : List Call} (hcs : ∀ c ∈ cs, PlainCall c) {calls : List (Str × Str)}
    {stop : Option Str} {t : Str} (ht : t <+: callsText cs (lineEnd ++ (toolCallsEndToken ++ eosToken)))
    {x : List (Str × Str) × Option Str × Str} (h : parseToolCalls calls stop t = .ok x)
    (hx : x.2.2 = [] ∨ x.2.2 = eosToken) : ∃ ds, CutCalls cs t ds := by
  induction cs generalizing calls stop t with
  | nil =>
    by_cases hnil : t = []
    · exact ⟨[],hnil ▸ .stop []⟩
    rcases readUntil_cut (readUntil_line (List.mem_cons_of_mem _ List.mem_cons_self))
        (call_marks_whole _ (List.mem_cons_of_mem _ List.mem_cons_self)) ht with ⟨hmiss,_⟩ | ⟨u,_,rfl,_⟩
    · obtain ⟨e,he⟩ := parseToolCalls_unended calls stop hnil hmiss
      rw [he] at h
      cases h
    · rw [parseToolCalls_end] at h
      cases h
      exact ⟨[],.close hx⟩
  | cons c cs ih =>
    by_cases hnil : t = []
    · exact ⟨[],hnil ▸ .stop _⟩
    rcases readUntil_cut (readUntil_line List.mem_cons_self) (call_marks_whole _ List.mem_cons_self) ht with
      ⟨hmiss,_⟩ | ⟨u,hu,rfl,_⟩
    · obtain ⟨e,he⟩ := parseToolCalls_unended calls stop hnil hmiss
      rw [he] at h
      cases h
    · cases hinvoke : parseInvoke u with
      | error e =>
        rw [parseToolCalls_refused hinvoke] at h
        cases h
      | ok p =>
        rw [parseToolCalls_call hinvoke] at h
        rcases parseInvoke_begun (hcs c List.mem_cons_self) hu hinvoke with ⟨d,hd,_⟩ | ⟨v,hv,rfl,hp⟩
        · exact ⟨[d],.within cs hd⟩
        · rw [hp] at h
          obtain ⟨ds,hds⟩ := ih (fun d hd => hcs d (List.mem_cons_of_mem _ hd)) hv h
          exact ⟨c :: ds,.call c hds⟩

theorem readReasoning_begun {mode : Mode} {reasoning cut t : Str} (hclean : Clean reasoning)
    (hcut : cut <+: reasoningText mode reasoning ++ t) {r : Str × Str} (h : readReasoning mode cut = .ok r) :
    r.2 <+: t ∧ cut = reasoningText mode reasoning ++ r.2 := by
  cases mode with
  | chat =>
    cases h
    exact ⟨hcut,rfl⟩
  | thinking =>
    rw [reasoningText,if_pos rfl,List.append_assoc] at hcut
    rw [readReasoning,if_pos rfl] at h
    rcases readUntil_cut (readUntil_reasoning hclean) (by decide) hcut with ⟨hmiss,_⟩ | ⟨u,hu,rfl,hread⟩
    · have hnone : ¬ none = some thinkingEndToken := by decide
      simp only [hmiss] at h
      rw [if_neg hnone] at h
      cases h
    · simp only [hread] at h
      rw [if_pos trivial] at h
      cases h
      exact ⟨hu,by rw [reasoningText,if_pos rfl,List.append_assoc]⟩

/-- A beginning of an answer that is read goes past the mark of the calls, and
after the calls nothing stands, or the end of the sentence. -/
theorem readAnswer_begun {content t calls : Str} (hclean : Clean content)
    (ht : t <+: content ++ (toolCallsStartToken ++ calls)) {x : Str × List (Str × Str) × Str}
    (h : readAnswer t = .ok x) (hx : x.2.2 = []) :
    ∃ u p, u <+: calls ∧ t = content ++ (toolCallsStartToken ++ u) ∧ parseToolCalls [] none u = .ok p ∧
      (p.2.2 = [] ∨ p.2.2 = eosToken) := by
  have hmem : toolCallsStartToken ∈ [eosToken,toolCallsStartToken] := List.mem_cons_of_mem _ List.mem_cons_self
  unfold readAnswer at h
  rcases readUntil_cut (readUntil_content hclean hmem) (content_marks_whole _ hmem) ht with
    ⟨hmiss,_⟩ | ⟨u,hu,rfl,hread⟩
  · have hstart : ¬ none = some toolCallsStartToken := by decide
    have heos : ¬ none = some eosToken := by decide
    simp only [hmiss] at h
    rw [if_neg hstart,if_neg heos] at h
    cases h
  · simp only [hread] at h
    rw [if_pos trivial] at h
    obtain ⟨p,hp,h⟩ := bind_eq_ok.mp h
    refine ⟨u,p,hu,rfl,hp,?_⟩
    split_ifs at h with hends
    cases h
    rw [not_not] at hends
    rcases hr : readUntil [eosToken] p.2.2 with ⟨a,_ | s,b⟩
    · rw [hr] at hends
      exact .inl ((readUntil_none hr).1.symm.trans hends)
    · obtain ⟨hs,htext,_⟩ := readUntil_some hr
      rw [hr] at hends hx
      rw [htext,List.mem_singleton.mp hs,show a = [] from hends,show b = [] from hx]
      exact .inr rfl

end Refused

section Truncated

variable {F : Type} {fl : Floats F}

theorem answer_of_parse {mode : Mode} {cut : Str} {m : Message F}
    (h : parseMessageFromCompletionText F cut mode = .ok m) :
    ∃ r x, readReasoning mode cut = .ok r ∧ readAnswer r.2 = .ok x ∧ x.2.2 = [] := by
  obtain ⟨r,hr,h⟩ := bind_eq_ok.mp h
  obtain ⟨x,hx,h⟩ := bind_eq_ok.mp h
  refine ⟨r,x,hr,hx,?_⟩
  by_contra hne
  simp only [if_pos hne] at h
  cases h

/-- A completion with tool calls that is cut off is accepted exactly at the places
of `CutCalls`, as the message with the calls that stand there: within the
reasoning, the content, a mark or a parameter, and after a complete call, it is
refused. -/
theorem truncated_completion_accepted_iff {mode : Mode} {m : Message F} {text : Str}
    (h : completion fl (mode = .thinking) m = .ok text) (hend : m.woEos = false) (hm : Readable fl m)
    (hcalls : m.toolCalls ≠ []) :
    ∃ cs content, List.Forall₂ (fun c c' => callOf fl c = .ok c') m.toolCalls cs ∧
      m.content.orEmpty = .ok content ∧ ∀ cut, cut <+: text → ∀ m',
        parseMessageFromCompletionText F cut mode = .ok m' ↔
          ∃ t ds, CutCalls cs t ds ∧
            cut = reasoningText mode m.reasoningContent ++ (content ++ (toolCallsStartToken ++ t)) ∧
            m' = reply F mode m.reasoningContent content (readCalls ds) := by
  obtain ⟨cs,content,hcs,hcontent,rfl⟩ := completion_text h hend
  have hnil : cs ≠ [] := by
    rintro rfl
    exact hcalls (List.forall₂_nil_right_iff.mp hcs)
  have hclean := hm.content content hcontent
  have hplain := hm.plain hcs
  rw [callsPart,if_neg hnil,List.append_assoc,toolCalls_written hnil]
  have haccepted : ∀ {t : Str} {ds : List Call}, CutCalls cs t ds →
      parseMessageFromCompletionText F
        (reasoningText mode m.reasoningContent ++ (content ++ (toolCallsStartToken ++ t))) mode =
          .ok (reply F mode m.reasoningContent content (readCalls ds)) := by
    intro t ds ht
    obtain ⟨stop,e,hparse,he⟩ := parseToolCalls_cut hplain ht [] none
    exact parse_of_parts hm.reasoning hclean (readAnswer_of_calls hclean hparse he)
  refine ⟨cs,content,hcs,hcontent,fun cut hcut m' => ⟨fun hparse => ?_,?_⟩⟩
  · obtain ⟨r,x,hr,hx,hrest⟩ := answer_of_parse hparse
    obtain ⟨hpre,rfl⟩ := readReasoning_begun hm.reasoning hcut hr
    obtain ⟨u,p,hu,hr2,hp,he⟩ := readAnswer_begun hclean hpre hx hrest
    obtain ⟨ds,hds⟩ := parseToolCalls_begun hplain hu hp he
    rw [hr2] at hparse ⊢
    rw [haccepted hds] at hparse
    exact ⟨u,ds,hds,rfl,(Except.ok.inj hparse).symm⟩
  · rintro ⟨t,ds,ht,rfl,rfl⟩
    exact haccepted ht

def callingCut : Str := "so</think>ok\n\n<｜DSML｜tool_calls>\n<｜DSML｜invoke name=\"f\">\n".toList

theorem truncated_completion_accepted_iff_calling :
    parseMessageFromCompletionText Unit callingCut .thinking =
      .ok (reply Unit .thinking "so".toList "ok".toList [("f".toList,"\x7b\x7d".toList)]) := by
  obtain ⟨cs,content,hcs,hcontent,hiff⟩ := truncated_completion_accepted_iff completion_calling rfl
    readable_calling (List.cons_ne_nil _ _)
  cases hcontent
  obtain ⟨c,cs,hc,_,rfl⟩ := List.forall₂_cons_left_iff.mp hcs
  obtain ⟨kvs,hkvs,rfl⟩ := callOf_eq_ok noFloats hc
  refine (hiff callingCut (by decide) _).mpr ⟨_,_,.within cs (.head "f".toList [] (.inl rfl) ?_),by decide,rfl⟩
  exact ⟨_,rfl⟩

end Truncated

end SglangLite.Chat
