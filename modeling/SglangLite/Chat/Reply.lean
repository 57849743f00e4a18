import SglangLite.Chat.RoundTrip

set_option autoImplicit false

namespace SglangLite.Chat

open JsonText Scan

variable {F : Type} (fl : Floats F)

section Arguments

def paramOf (kv : Str × Value F) : Str × Bool × Str := (kv.1,(paramValue fl kv.2).2,(paramValue fl kv.2).1)

def memberText (p : Str × Bool × Str) : Str :=
  quote false p.1 ++ ": ".toList ++ if p.2.1 then quote false p.2.2 else p.2.2

theorem memberText_paramOf (kv : Str × Value F) :
    memberText (paramOf fl kv) = quote false kv.1 ++ [':',' '] ++ dumps fl false kv.2 := by
  rcases kv with ⟨k,v⟩
  cases v <;> simp [memberText,paramOf,paramValue,toJson,dumps]

theorem members_written (kv : Str × Value F) (kvs : List (Str × Value F)) :
    ", ".toList.intercalate ((kv :: kvs).map fun e => memberText (paramOf fl e)) ++ ['}'] =
      memberText (paramOf fl kv) ++ dumpsMembers fl false kvs := by
  have hsep : ", ".toList = [',',' '] := rfl
  induction kvs generalizing kv with
  | nil => simp [dumpsMembers]
  | cons e kvs ih =>
    have hrest := ih e
    rw [List.map_cons] at hrest
    rw [List.map_cons,List.map_cons,List.intercalate_cons_cons,List.append_assoc,hrest,dumpsMembers,
      memberText_paramOf fl e,hsep]
    simp only [List.append_assoc]

theorem decode_paramOf (kvs : List (Str × Value F)) :
    decodeDsmlToArguments (kvs.map (paramOf fl)) = toJson fl (.obj kvs) := by
  cases kvs with
  | nil => simp [decodeDsmlToArguments,toJson,dumps]
  | cons kv kvs =>
    have h := members_written fl kv kvs
    have hmap : (kv :: kvs).map (fun e => memberText (paramOf fl e)) =
        ((kv :: kvs).map (paramOf fl)).map memberText := by rw [List.map_map]; rfl
    rw [hmap,memberText_paramOf] at h
    rw [decodeDsmlToArguments,toJson,dumps,← h]
    rfl

theorem loadArguments_distinct {arguments : Str} {kvs : List (Str × Value F)}
    (h : loadArguments fl arguments = .ok kvs) : (Value.obj kvs).Distinct := by
  unfold loadArguments at h
  split at h
  · rename_i hl
    cases h
    exact loads_distinct fl hl
  · cases h
  · cases h
    exact ⟨List.nodup_singleton _,trivial,trivial⟩

theorem loadArguments_toJson {kvs : List (Str × Value F)} (h : (Value.obj kvs).Distinct) :
    loadArguments fl (toJson fl (.obj kvs)) = .ok kvs := by
  rw [loadArguments,toJson,loads_dumps fl false h]

end Arguments

section Completion

def callOf (c : ToolCall) : Except EncodeError Call :=
  (loadArguments fl c.arguments).map fun kvs => (c.name,kvs.map (paramOf fl))

def callsPart (cs : List Call) : Str :=
  if cs = [] then [] else "\n\n".toList ++ toolCallsText (cs.map callText)

theorem renderToolCalls_eq_ok {calls : List ToolCall} {t : Str} (h : renderToolCalls fl calls = .ok t) :
    ∃ cs, List.Forall₂ (fun c c' => callOf fl c = .ok c') calls cs ∧ t = callsPart cs := by
  unfold renderToolCalls at h
  split_ifs at h with hnil
  · cases h
    exact ⟨[],hnil ▸ .nil,rfl⟩
  · obtain ⟨texts,htexts,h⟩ := bind_eq_ok.mp h
    cases h
    have hall := mapM_eq_ok.mp htexts
    have hcs : ∀ {calls : List ToolCall} {texts : List Str}, List.Forall₂ (fun c t =>
        (encodeArgumentsToDsml fl c.arguments).map (toolCallText c.name) = .ok t) calls texts →
        ∃ cs, List.Forall₂ (fun c c' => callOf fl c = .ok c') calls cs ∧ texts = cs.map callText := by
      intro calls texts hall
      induction hall with
      | nil => exact ⟨[],.nil,rfl⟩
      | @cons c t calls texts hc _ ih =>
        obtain ⟨cs,hcs,rfl⟩ := ih
        unfold encodeArgumentsToDsml at hc
        cases hl : loadArguments fl c.arguments with
        | error e => rw [hl] at hc; cases hc
        | ok kvs =>
          rw [hl] at hc
          cases hc
          refine ⟨(c.name,kvs.map (paramOf fl)) :: cs,.cons (by rw [callOf,hl]; rfl) hcs,?_⟩
          rw [List.map_cons,callText,List.map_map]
          rfl
    obtain ⟨cs,hcs,rfl⟩ := hcs hall
    have hne : cs ≠ [] := by
      rintro rfl
      cases hcs
      exact hnil rfl
    exact ⟨cs,hcs,by rw [callsPart,if_neg hne]⟩

theorem completion_eq_ok {thinking : Bool} {m : Message F} {text : Str}
    (h : completion fl thinking m = .ok text) :
    ∃ cs content, List.Forall₂ (fun c c' => callOf fl c = .ok c') m.toolCalls cs ∧
      m.content.orEmpty = .ok content ∧
      text = (if thinking then m.reasoningContent ++ thinkingEndToken else []) ++
        (content ++ (callsPart cs ++ if m.woEos then [] else eosToken)) := by
  obtain ⟨calls,hcalls,h⟩ := bind_eq_ok.mp h
  obtain ⟨content,hcontent,h⟩ := bind_eq_ok.mp h
  obtain ⟨cs,hcs,rfl⟩ := renderToolCalls_eq_ok fl hcalls
  cases h
  exact ⟨cs,content,hcs,hcontent,by simp only [List.append_assoc]⟩

end Completion

section Reply

/-- A message whose parts have none of the marks that the parser looks for. -/
structure Readable (m : Message F) : Prop where
  reasoning : Clean m.reasoningContent
  content : ∀ t, m.content.orEmpty = .ok t → Clean t
  names : ∀ c ∈ m.toolCalls, Unmarked c.name
  arguments : ∀ c ∈ m.toolCalls, ∀ kvs, loadArguments fl c.arguments = .ok kvs →
    ∀ kv ∈ kvs, Plain (paramOf fl kv)

def Same (c c' : ToolCall) : Prop :=
  c'.name = c.name ∧ loadArguments fl c'.arguments = loadArguments fl c.arguments

theorem renderToolCalls_congr {calls calls' : List ToolCall} (h : List.Forall₂ (Same fl) calls calls') :
    renderToolCalls fl calls' = renderToolCalls fl calls := by
  have hmap : calls'.mapM (fun c => (encodeArgumentsToDsml fl c.arguments).map (toolCallText c.name)) =
      calls.mapM fun c => (encodeArgumentsToDsml fl c.arguments).map (toolCallText c.name) := by
    induction h with
    | nil => rfl
    | cons hc _ ih => rw [List.mapM_cons,List.mapM_cons,ih,encodeArgumentsToDsml,encodeArgumentsToDsml,hc.1,hc.2]
  cases h with
  | nil => rfl
  | cons _ _ => simp only [renderToolCalls,if_neg (List.cons_ne_nil _ _),hmap]

def toolCallOf (c : Str × Str) : ToolCall := { name := c.1, arguments := c.2 }

theorem exists_of_forall₂ {α β : Type} {R : α → β → Prop} {xs : List α} {ys : List β}
    (h : List.Forall₂ R xs ys) {y : β} (hy : y ∈ ys) : ∃ x ∈ xs, R x y := by
  induction h with
  | nil => exact absurd hy List.not_mem_nil
  | cons hr _ ih =>
    rcases List.mem_cons.mp hy with rfl | hy
    · exact ⟨_,List.mem_cons_self,hr⟩
    · obtain ⟨x,hx,hr⟩ := ih hy
      exact ⟨x,List.mem_cons_of_mem _ hx,hr⟩

theorem callOf_eq_ok {c : ToolCall} {c' : Call} (h : callOf fl c = .ok c') :
    ∃ kvs, loadArguments fl c.arguments = .ok kvs ∧ c' = (c.name,kvs.map (paramOf fl)) := by
  unfold callOf at h
  cases hl : loadArguments fl c.arguments with
  | error e => rw [hl] at h; cases h
  | ok kvs => rw [hl] at h; cases h; exact ⟨kvs,rfl,rfl⟩

variable {fl}

theorem Readable.plain {m : Message F} (hm : Readable fl m) {cs : List Call}
    (hcs : List.Forall₂ (fun c c' => callOf fl c = .ok c') m.toolCalls cs) : ∀ c ∈ cs, PlainCall c := by
  intro c' hc'
  obtain ⟨c,hc,h⟩ := exists_of_forall₂ hcs hc'
  obtain ⟨kvs,hl,rfl⟩ := callOf_eq_ok fl h
  refine ⟨hm.names c hc,fun p hp => ?_,?_⟩
  · obtain ⟨kv,hkv,rfl⟩ := List.mem_map.mp hp
    exact hm.arguments c hc kvs hl kv hkv
  · have hkeys := (loadArguments_distinct fl hl).1
    rw [List.map_map]
    exact hkeys

theorem same_readCalls {calls : List ToolCall} {cs : List Call}
    (hcs : List.Forall₂ (fun c c' => callOf fl c = .ok c') calls cs) :
    List.Forall₂ (Same fl) calls ((readCalls cs).map toolCallOf) := by
  rw [readCalls,List.map_map]
  refine List.forall₂_map_right_iff.mpr (hcs.imp fun c c' h => ?_)
  obtain ⟨kvs,hl,rfl⟩ := callOf_eq_ok fl h
  refine ⟨rfl,?_⟩
  rw [hl,Function.comp_apply,toolCallOf,decode_paramOf,loadArguments_toJson fl (loadArguments_distinct fl hl)]

def reply (F : Type) (mode : Mode) (reasoning content : Str) (calls : List (Str × Str)) : Message F where
  role := .assistant
  content := .text content
  reasoningContent := if mode = .thinking then reasoning else []
  toolCalls := calls.map toolCallOf

theorem completion_text {mode : Mode} {m : Message F} {text : Str}
    (h : completion fl (mode = .thinking) m = .ok text) (hend : m.woEos = false) :
    ∃ cs content, List.Forall₂ (fun c c' => callOf fl c = .ok c') m.toolCalls cs ∧
      m.content.orEmpty = .ok content ∧
      text = reasoningText mode m.reasoningContent ++ (content ++ (callsPart cs ++ eosToken)) := by
  obtain ⟨cs,content,hcs,hcontent,htext⟩ := completion_eq_ok fl h
  refine ⟨cs,content,hcs,hcontent,?_⟩
  rw [htext,hend,reasoningText]
  simp only [decide_eq_true_eq,Bool.false_eq_true,if_false]

def oneArgument : Str := "\x7b\"a\": 1\x7d".toList

def calling : Message Unit where
  role := .assistant
  content := .text "ok".toList
  reasoningContent := "so".toList
  toolCalls := [{ name := "f".toList, arguments := oneArgument }]

theorem loadArguments_calling : loadArguments noFloats oneArgument = .ok [(['a'],.int 1)] := by
  have h := loads_dumps noFloats false (v := .obj [(['a'],.int 1)]) ⟨by decide,trivial,trivial⟩
  have ht : dumps noFloats false (.obj [(['a'],.int 1)]) = oneArgument := by decide
  rw [loadArguments,← ht,h]

def callingText : Str :=
  "so</think>ok\n\n<｜DSML｜tool_calls>\n<｜DSML｜invoke name=\"f\">\n".toList ++
    "<｜DSML｜parameter name=\"a\" string=\"false\">1</｜DSML｜parameter>\n".toList ++
    "</｜DSML｜invoke>\n</｜DSML｜tool_calls><｜end▁of▁sentence｜>".toList

theorem completion_calling :
    completion noFloats (decide (Mode.thinking = .thinking)) calling = .ok callingText := by
  have hargs : encodeArgumentsToDsml noFloats oneArgument =
      .ok (['\n'].intercalate (paramTexts noFloats [(['a'],.int 1)])) := by
    rw [encodeArgumentsToDsml,loadArguments_calling]
    rfl
  have hcalls : renderToolCalls noFloats calling.toolCalls = .ok ("\n\n".toList ++ toolCallsText
      [toolCallText "f".toList (['\n'].intercalate (paramTexts noFloats [(['a'],.int 1)]))]) := by
    simp only [renderToolCalls,calling,if_neg (List.cons_ne_nil _ _),List.mapM_cons,List.mapM_nil,hargs]
    rfl
  rw [completion,hcalls]
  decide +kernel

theorem readable_calling : Readable noFloats calling where
  reasoning := by unfold Clean; decide
  content t h := by cases h; unfold Clean; decide
  names := by decide
  arguments c hc kvs h kv hkv := by
    rw [List.mem_singleton.mp hc,loadArguments_calling] at h
    cases h
    rw [List.mem_singleton.mp hkv]
    exact ⟨by decide,by decide,by decide⟩

/-- What `render_message` writes for an assistant message is read back as the
same message: the content, in thinking mode the reasoning, and tool calls of the
same names whose arguments are the same objects. -/
theorem completion_reads_back {mode : Mode} {m : Message F} {text : Str}
    (h : completion fl (mode = .thinking) m = .ok text) (hend : m.woEos = false) (hm : Readable fl m) :
    ∃ m', parseMessageFromCompletionText F text mode = .ok m' ∧ m'.role = .assistant ∧
      m'.content.orEmpty = m.content.orEmpty ∧
      m'.reasoningContent = (if mode = .thinking then m.reasoningContent else []) ∧
      List.Forall₂ (Same fl) m.toolCalls m'.toolCalls ∧
      completion fl (mode = .thinking) m' = .ok text := by
  obtain ⟨cs,content,hcs,hcontent,rfl⟩ := completion_text h hend
  have hc := hm.content content hcontent
  have hread : readAnswer (content ++ (callsPart cs ++ eosToken)) = .ok (content,readCalls cs,[]) := by
    by_cases hnil : cs = []
    · subst hnil
      exact readAnswer_plain hc []
    · rw [callsPart,if_neg hnil,List.append_assoc,toolCalls_written hnil]
      exact readAnswer_calls hc (hm.plain hcs)
  have hsame := same_readCalls hcs
  refine ⟨reply F mode m.reasoningContent content (readCalls cs),parse_of_parts hm.reasoning hc hread,rfl,
    hcontent.symm,rfl,hsame,?_⟩
  rw [← h,completion,completion,reply,renderToolCalls_congr fl hsame,hcontent,hend]
  cases mode <;> rfl

theorem completion_reads_back_calling :
    ∃ m', parseMessageFromCompletionText Unit callingText .thinking = .ok m' ∧ m'.role = .assistant ∧
      m'.content.orEmpty = calling.content.orEmpty ∧ m'.reasoningContent = calling.reasoningContent ∧
      List.Forall₂ (Same noFloats) calling.toolCalls m'.toolCalls ∧
      completion noFloats true m' = .ok callingText :=
  completion_reads_back completion_calling rfl readable_calling

end Reply

section Plain

variable {fl}

theorem clean_of_find {a b : Str} (h : (specialTokens.find? fun s => s <:+: a || s <:+: b) = none) :
    Clean a ∧ Clean b := by
  have hno := List.find?_eq_none.mp h
  refine ⟨fun s hs ha => hno s hs ?_,fun s hs hb => hno s hs ?_⟩
  · rw [Bool.or_eq_true]
    exact .inl (decide_eq_true ha)
  · rw [Bool.or_eq_true]
    exact .inr (decide_eq_true hb)

theorem readAnswer_eq_ok {t c rest : Str} {calls : List (Str × Str)}
    (hno : ¬ toolCallsStartToken <:+: t) (h : readAnswer t = .ok (c,calls,rest)) :
    t = c ++ (eosToken ++ rest) ∧ calls = [] := by
  rcases hr : readUntil [eosToken,toolCallsStartToken] t with ⟨c',_ | s,r⟩
  · simp [readAnswer,hr] at h
  · obtain ⟨hs,ht,_⟩ := readUntil_some hr
    have hstop : s = eosToken := by
      rcases List.mem_cons.mp hs with h | h
      · exact h
      · refine absurd ⟨c',r,?_⟩ hno
        rw [ht,List.mem_singleton.mp h,List.append_assoc]
    subst hstop
    have hne : some eosToken ≠ some toolCallsStartToken := by decide
    simp only [readAnswer,hr] at h
    rw [if_neg hne,if_pos trivial] at h
    cases h
    exact ⟨ht,rfl⟩

theorem completion_reply (mode : Mode) (reasoning content : Str) :
    completion fl (mode = .thinking) (reply F mode reasoning content []) =
      .ok (reasoningText mode reasoning ++ (content ++ (eosToken ++ []))) := by
  have h : completion fl (mode = .thinking) (reply F mode reasoning content []) =
      .ok (reasoningText mode reasoning ++ content ++ [] ++ eosToken) := by cases mode <;> rfl
  rw [h,List.append_nil,List.append_assoc,List.append_nil]

theorem readReasoning_eq_ok {mode : Mode} {text : Str} {r : Str × Str} (h : readReasoning mode text = .ok r) :
    text = reasoningText mode r.1 ++ r.2 ∧ (mode = .chat → r.1 = []) := by
  cases mode with
  | chat =>
    cases h
    exact ⟨rfl,fun _ => rfl⟩
  | thinking =>
    rw [readReasoning,if_pos rfl] at h
    rcases hr : readUntil [thinkingEndToken,toolCallsStartToken] text with ⟨c,_ | s,t⟩
    · simp [hr] at h
    · simp only [hr] at h
      split_ifs at h with hs
      cases h
      cases hs
      refine ⟨?_,fun h => (by cases h)⟩
      rw [(readUntil_some hr).2.1,reasoningText,if_pos rfl,List.append_assoc]

def done : Message Unit := reply Unit .chat [] "done".toList []

end Plain

end SglangLite.Chat
