import Mathlib.Data.List.Induction
import SglangLite.Chat.Encode

set_option autoImplicit false

namespace SglangLite.Chat

open JsonText

variable {F : Type}

section Merge

def Message.apart (m : Message F) : Prop := m.role ≠ .user ∧ m.role ≠ .tool

theorem mergeInto_append {acc l : List (Message F)} (hl : l ≠ []) (ok : Message F → Bool) (b : Block)
    (new : Message F) : mergeInto (acc ++ l) ok b new = acc ++ mergeInto l ok b new := by
  have hlast : (acc ++ l).getLast? = l.getLast? := List.getLast?_append_of_ne_nil acc hl
  have hdrop : (acc ++ l).dropLast = acc ++ l.dropLast := List.dropLast_append_of_ne_nil hl
  rw [mergeInto,mergeInto,hlast,hdrop]
  cases l.getLast? with
  | none => exact List.append_assoc _ _ _
  | some last =>
    simp only
    split_ifs <;> exact List.append_assoc _ _ _

theorem mergeInto_cases (l : List (Message F)) (ok : Message F → Bool) (b : Block) (new : Message F) :
    mergeInto l ok b new = l ++ [new] ∨
      ∃ init last, l = init ++ [last] ∧ last.role = .user ∧ mergeInto l ok b new = init ++ [last.addBlock b] := by
  rw [mergeInto]
  cases hl : l.getLast? with
  | none => exact .inl rfl
  | some last =>
    simp only
    split_ifs with hok
    · refine .inr ⟨l.dropLast,last,(List.dropLast_append_getLast? last hl).symm,?_,rfl⟩
      simp only [Message.merging,Bool.and_eq_true,decide_eq_true_eq] at hok
      exact hok.1.1
    · exact .inl rfl

theorem mergeStep_append {acc l : List (Message F)} (hl : l ≠ []) (m : Message F) :
    mergeStep (acc ++ l) m = acc ++ mergeStep l m := by
  unfold mergeStep
  cases m.role with
  | tool => exact mergeInto_append hl _ _ _
  | user => exact mergeInto_append hl _ _ _
  | _ => exact List.append_assoc _ _ _

theorem mergeStep_apart {m : Message F} (h : m.apart) (l : List (Message F)) : mergeStep l m = l ++ [m] := by
  obtain ⟨hu,ht⟩ := h
  unfold mergeStep
  cases hr : m.role <;> simp_all

/-- What the merge does with a message that it does not add as it is: it adds a
user message made of one block, or the block to the last message. -/
theorem mergeStep_user {m : Message F} (h : ¬ m.apart) (l : List (Message F)) :
    ∃ (b : Block) (u : Message F), u.role = .user ∧ u.tools = [] ∧ (m.task = none → u.task = none) ∧
      (mergeStep l m = l ++ [u] ∨
        ∃ init last, l = init ++ [last] ∧ last.role = .user ∧ mergeStep l m = init ++ [last.addBlock b]) := by
  unfold mergeStep
  cases hr : m.role with
  | tool => exact ⟨_,_,rfl,rfl,fun _ => rfl,mergeInto_cases _ _ _ _⟩
  | user =>
    refine ⟨.text m.content,{ role := .user, content := m.content, contentBlocks := some [.text m.content]
                              task := m.task, woEos := m.woEos },rfl,rfl,id,mergeInto_cases _ _ _ _⟩
  | _ => exact absurd ⟨by simp [hr],by simp [hr]⟩ h

theorem mergeStep_ne_nil (l : List (Message F)) (m : Message F) : mergeStep l m ≠ [] := by
  by_cases hm : m.apart
  · rw [mergeStep_apart hm]
    exact List.concat_ne_nil m l
  · obtain ⟨b,u,_,_,_,h | ⟨init,last,_,_,h⟩⟩ := mergeStep_user hm l
    · rw [h]
      exact List.concat_ne_nil u l
    · rw [h]
      exact List.concat_ne_nil _ init

theorem foldl_mergeStep_append {acc l : List (Message F)} (hl : l ≠ []) (ms : List (Message F)) :
    ms.foldl mergeStep (acc ++ l) = acc ++ ms.foldl mergeStep l := by
  induction ms generalizing l with
  | nil => rfl
  | cons m ms ih => rw [List.foldl_cons,List.foldl_cons,mergeStep_append hl,ih (mergeStep_ne_nil l m)]

/-- Messages from one that is not merged on are merged by themselves. -/
theorem merge_append {ctx msgs : List (Message F)} (h : ∀ m ∈ msgs.head?, m.apart) :
    mergeToolMessages (ctx ++ msgs) = mergeToolMessages ctx ++ mergeToolMessages msgs := by
  cases msgs with
  | nil => rw [List.append_nil]; exact (List.append_nil _).symm
  | cons m msgs =>
    have hm := h m rfl
    rw [mergeToolMessages,List.foldl_append,List.foldl_cons,mergeStep_apart hm,
      foldl_mergeStep_append (List.cons_ne_nil m []),mergeToolMessages,mergeToolMessages,List.foldl_cons,
      mergeStep_apart hm,List.nil_append]

end Merge

section Order

def orderAfter (order : List (Str × Nat)) (ms : List (Message F)) : List (Str × Nat) :=
  ms.foldl (fun o m => if m.role = .assistant ∧ m.toolCalls ≠ [] then callOrder m.toolCalls else o) order

theorem sortFrom_append (order : List (Str × Nat)) (xs ys : List (Message F)) :
    sortFrom order (xs ++ ys) = sortFrom order xs ++ sortFrom (orderAfter order xs) ys := by
  induction xs generalizing order with
  | nil => rfl
  | cons m xs ih =>
    rw [List.cons_append,sortFrom,sortFrom,orderAfter,List.foldl_cons]
    by_cases ha : m.role = .assistant ∧ m.toolCalls ≠ []
    · rw [if_pos ha,if_pos ha,if_pos ha,ih]
      rfl
    · rw [if_neg ha,if_neg ha,if_neg ha]
      by_cases hu : m.role = .user
      · rw [if_pos hu,if_pos hu,ih]
        rfl
      · rw [if_neg hu,if_neg hu,ih]
        rfl

theorem length_sortFrom (order : List (Str × Nat)) (ms : List (Message F)) :
    (sortFrom order ms).length = ms.length := by
  induction ms generalizing order with
  | nil => rfl
  | cons m ms ih =>
    rw [sortFrom]
    split_ifs <;> rw [List.length_cons,ih,List.length_cons]

theorem orderAfter_append (order : List (Str × Nat)) (xs ys : List (Message F)) :
    orderAfter order (xs ++ ys) = orderAfter (orderAfter order xs) ys := List.foldl_append

theorem orderAfter_concat_user (order : List (Str × Nat)) (l : List (Message F)) {m : Message F}
    (h : m.role = .user ∨ m.role = .tool) : orderAfter order (l ++ [m]) = orderAfter order l := by
  rw [orderAfter_append,orderAfter,List.foldl_cons,List.foldl_nil,if_neg]
  rintro ⟨ha,_⟩
  rw [ha] at h
  exact absurd h (by decide)

theorem Message.not_apart {m : Message F} (h : ¬ m.apart) : m.role = .user ∨ m.role = .tool := by
  by_contra hno
  exact h ⟨fun hu => hno (.inl hu),fun ht => hno (.inr ht)⟩

theorem orderAfter_mergeStep (order : List (Str × Nat)) (l : List (Message F)) (m : Message F) :
    orderAfter order (mergeStep l m) = orderAfter order (l ++ [m]) := by
  by_cases hm : m.apart
  · rw [mergeStep_apart hm]
  · rw [orderAfter_concat_user order l (Message.not_apart hm)]
    obtain ⟨b,u,hu,_,_,h | ⟨init,last,rfl,hlast,h⟩⟩ := mergeStep_user hm l
    · rw [h,orderAfter_concat_user order l (.inl hu)]
    · have hadd : (last.addBlock b).role = .user := hlast
      rw [h,orderAfter_concat_user order init (.inl hlast),orderAfter_concat_user order init (.inl hadd)]

theorem orderAfter_merge (order : List (Str × Nat)) (ms : List (Message F)) :
    orderAfter order (mergeToolMessages ms) = orderAfter order ms := by
  induction ms using List.reverseRecOn with
  | nil => rfl
  | append_singleton ms m ih =>
    rw [mergeToolMessages,List.foldl_append,List.foldl_cons,List.foldl_nil,orderAfter_mergeStep,
      orderAfter_append,orderAfter_append]
    exact congrArg (orderAfter · [m]) ih

theorem sorted_append {ctx msgs : List (Message F)} (h : ∀ m ∈ msgs.head?, m.apart) :
    sortToolResultsByCallOrder (mergeToolMessages (ctx ++ msgs)) =
      sortToolResultsByCallOrder (mergeToolMessages ctx) ++
        (sortToolResultsByCallOrder (ctx ++ mergeToolMessages msgs)).drop ctx.length := by
  have hdrop : (sortToolResultsByCallOrder (ctx ++ mergeToolMessages msgs)).drop ctx.length =
      sortFrom (orderAfter [] ctx) (mergeToolMessages msgs) := by
    rw [sortToolResultsByCallOrder,sortFrom_append,← length_sortFrom [] ctx,List.drop_left]
  rw [hdrop,merge_append h,sortToolResultsByCallOrder,sortFrom_append,orderAfter_merge]
  rfl

end Order

section Head

theorem merge_head {m : Message F} (h : m.apart) (ms : List (Message F)) :
    ∃ rest, mergeToolMessages (m :: ms) = m :: rest := by
  have hstep : ∀ (l : List (Message F)) (x : Message F), ∃ rest, mergeStep (m :: l) x = m :: rest := by
    intro l x
    by_cases hx : x.apart
    · exact ⟨l ++ [x],mergeStep_apart hx _⟩
    · obtain ⟨b,u,_,_,_,he | ⟨init,last,hl,hlast,he⟩⟩ := mergeStep_user hx (m :: l)
      · exact ⟨l ++ [u],he⟩
      · cases init with
        | nil =>
          cases hl
          exact absurd hlast h.1
        | cons y init =>
          cases hl
          exact ⟨init ++ [last.addBlock b],he⟩
  have hfold : ∀ (ms l : List (Message F)), ∃ rest, ms.foldl mergeStep (m :: l) = m :: rest := by
    intro ms
    induction ms with
    | nil => exact fun l => ⟨l,rfl⟩
    | cons x ms ih =>
      intro l
      obtain ⟨rest,hrest⟩ := hstep l x
      rw [List.foldl_cons,hrest]
      exact ih rest
  rw [mergeToolMessages,List.foldl_cons,mergeStep_apart h]
  exact hfold ms []

theorem sortFrom_cons {m : Message F} (h : m.role ≠ .user) (order : List (Str × Nat)) (ms : List (Message F)) :
    ∃ rest, sortFrom order (m :: ms) = m :: rest := by
  rw [sortFrom]
  split_ifs
  · exact ⟨_,rfl⟩
  · exact ⟨_,rfl⟩

def Message.answers (m : Message F) : Prop := m.role = .assistant ∨ m.role = .latestReminder

theorem Message.answers.apart {m : Message F} (h : m.answers) : m.apart := by
  rcases h with h | h
  · exact ⟨by rw [h]; decide,by rw [h]; decide⟩
  · exact ⟨by rw [h]; decide,by rw [h]; decide⟩

theorem sorted_head {ctx msgs : List (Message F)} (h : ∀ m ∈ msgs.head?, m.answers) :
    ∀ m ∈ ((sortToolResultsByCallOrder (ctx ++ mergeToolMessages msgs)).drop ctx.length).head?, m.answers := by
  rw [sortToolResultsByCallOrder,sortFrom_append,← length_sortFrom [] ctx,List.drop_left]
  cases msgs with
  | nil => exact fun m hm => nomatch hm
  | cons m ms =>
    have hm := h m rfl
    obtain ⟨rest,hrest⟩ := merge_head hm.apart ms
    obtain ⟨rest',hrest'⟩ := sortFrom_cons hm.apart.1 (orderAfter [] ctx) rest
    rw [hrest,hrest']
    intro x hx
    cases hx
    exact hm

end Head

section Render

variable {fl : Floats F} {mode : Mode} {d d' : Bool} {effort : Option Effort} {A B : List (Message F)} {i : Nat}

theorem leadsOn_append (hi : i < A.length) (hB : ∀ m ∈ B.head?, m.answers) :
    leadsOn i (A ++ B) = leadsOn i A := by
  unfold leadsOn
  by_cases hlt : i+1 < A.length
  · rw [List.getElem?_append_left hlt]
  · have heq : i+1 = A.length := by omega
    rw [List.getElem?_append_right (by omega),heq,Nat.sub_self,List.getElem?_eq_none (Nat.le_refl A.length),
      ← List.head?_eq_getElem?]
    cases hb : B.head? with
    | none => rfl
    | some m =>
      simp only [Bool.or_eq_true,decide_eq_true_eq]
      exact hB m hb

theorem prevHasTask_append (hi : i < A.length) : prevHasTask i (A ++ B) = prevHasTask i A := by
  unfold prevHasTask
  rw [List.getElem?_append_left (by omega)]

/-- A message before the model's turn is rendered as if it were the last, unless
reasoning is dropped. -/
theorem renderMessage_append (hi : i < A.length) (hB : ∀ m ∈ B.head?, m.answers)
    (hkeep : mode = .thinking → d = false ∧ d' = false) :
    renderMessage fl mode d effort i (A ++ B) = renderMessage fl mode d' effort i A := by
  have hflag : ∀ {p q : Bool},
      (decide (mode = .thinking) && (!d || p)) = (decide (mode = .thinking) && (!d' || q)) := by
    intro p q
    cases mode with
    | chat => rfl
    | thinking =>
      obtain ⟨rfl,rfl⟩ := hkeep rfl
      rfl
  have hbody : ∀ m, renderBody fl mode d i (A ++ B) m = renderBody fl mode d' i A m := by
    intro m
    unfold renderBody
    have h : ∀ {p q : Bool}, (decide (mode = .thinking) && !prevHasTask i (A ++ B) && (!d || p)) =
        (decide (mode = .thinking) && !prevHasTask i A && (!d' || q)) := by
      intro p q
      rw [prevHasTask_append hi,Bool.and_right_comm,hflag (p := p) (q := q),Bool.and_right_comm]
    rw [h]
  have htrans : ∀ m, transition mode d i (A ++ B) m = transition mode d' i A m := by
    intro m
    unfold transition
    rw [hflag]
  rw [renderMessage,renderMessage,List.getElem?_append_left hi,leadsOn_append hi hB]
  simp only [hbody,htrans]

end Render

section Encode

variable {fl : Floats F} {o : Options}

def hasTools (ms : List (Message F)) : Bool := ms.any fun m => !m.tools.isEmpty

def renderSpan (fl : Floats F) (o : Options) (dropping : Bool) (lo n : Nat) (ms : List (Message F)) :
    Except EncodeError (List Str) :=
  (List.range' lo n).mapM fun i => renderMessage fl o.thinkingMode dropping o.reasoningEffort i ms

def startText (o : Options) (ctx : List (Message F)) : Str :=
  if o.addDefaultBosToken && ctx.isEmpty then bosToken else []

theorem encodeMessages_kept {messages context : List (Message F)} {ctx merged : List (Message F)}
    (hctx : sortToolResultsByCallOrder (mergeToolMessages context) = ctx)
    (hmerged : (sortToolResultsByCallOrder (context ++ mergeToolMessages messages)).drop context.length = merged)
    (hkeep : o.thinkingMode = .thinking → (o.dropThinking && !hasTools (ctx ++ merged)) = false) :
    encodeMessages fl o messages context = (do
      let texts ← renderSpan fl o (o.dropThinking && !hasTools (ctx ++ merged)) ctx.length merged.length
        (ctx ++ merged)
      return startText o ctx ++ texts.flatten) := by
  have hno : ¬ (o.thinkingMode = .thinking ∧ (o.dropThinking && !hasTools (ctx ++ merged)) = true) :=
    fun h => by rw [hkeep h.1] at h; exact absurd h.2 (by decide)
  have hsub : (ctx ++ merged).length-merged.length = ctx.length := by
    rw [List.length_append,Nat.add_sub_cancel]
  have hrender : toRender o (o.dropThinking && !hasTools (ctx ++ merged)) ctx merged =
      (ctx ++ merged,merged.length) := if_neg hno
  unfold encodeMessages
  simp only [hctx,hmerged]
  unfold hasTools at hrender ⊢
  rw [hrender]
  simp only [hsub]
  rfl

theorem renderSpan_append (dropping : Bool) (lo n k : Nat) (ms : List (Message F)) :
    renderSpan fl o dropping lo (n+k) ms = (do
      let xs ← renderSpan fl o dropping lo n ms
      let ys ← renderSpan fl o dropping (lo+n) k ms
      return xs ++ ys) := by
  have hsplit : List.range' lo (n+k) = List.range' lo n ++ List.range' (lo+n) k := by
    rw [List.range'_append_1]
  rw [renderSpan,hsplit,List.mapM_append]
  rfl

theorem renderSpan_kept {d d' : Bool} {A B : List (Message F)} (hB : ∀ m ∈ B.head?, m.answers)
    (hkeep : o.thinkingMode = .thinking → d = false ∧ d' = false) :
    renderSpan fl o d 0 A.length (A ++ B) = renderSpan fl o d' 0 A.length A := by
  refine mapM_congr fun i hi => ?_
  rw [List.mem_range'_1] at hi
  exact renderMessage_append (by omega) hB hkeep

theorem mem_merge {m : Message F} (h : m.apart) {ms : List (Message F)} (hm : m ∈ ms) :
    m ∈ mergeToolMessages ms := by
  have hstep : ∀ (l : List (Message F)) (x : Message F), m ∈ l → m ∈ mergeStep l x := by
    intro l x hl
    by_cases hx : x.apart
    · rw [mergeStep_apart hx]
      exact List.mem_append_left _ hl
    · obtain ⟨b,u,_,_,_,he | ⟨init,last,rfl,hlast,he⟩⟩ := mergeStep_user hx l
      · rw [he]
        exact List.mem_append_left _ hl
      · rw [he]
        rcases List.mem_append.mp hl with hl | hl
        · exact List.mem_append_left _ hl
        · rw [List.mem_singleton.mp hl] at h
          exact absurd hlast h.1
  induction ms using List.reverseRecOn with
  | nil => exact absurd hm List.not_mem_nil
  | append_singleton ms x ih =>
    rw [mergeToolMessages,List.foldl_append]
    rcases List.mem_append.mp hm with hm | hm
    · exact hstep _ x (ih hm)
    · rw [← List.mem_singleton.mp hm,List.foldl_cons,List.foldl_nil,mergeStep_apart h]
      exact List.mem_append_right _ (List.mem_singleton_self m)

theorem mem_sortFrom {m : Message F} (h : m.role ≠ .user) {ms : List (Message F)} (hm : m ∈ ms)
    (order : List (Str × Nat)) : m ∈ sortFrom order ms := by
  induction ms generalizing order with
  | nil => exact absurd hm List.not_mem_nil
  | cons x ms ih =>
    rw [sortFrom]
    rcases List.mem_cons.mp hm with rfl | hm
    · rw [if_neg h]
      split_ifs <;> exact List.mem_cons_self
    · split_ifs <;> exact List.mem_cons_of_mem _ (ih hm _)

theorem hasTools_sorted {ms : List (Message F)} (h : ∃ m ∈ ms, m.apart ∧ m.tools ≠ []) (more : List (Message F)) :
    hasTools (sortToolResultsByCallOrder (mergeToolMessages ms) ++ more) = true := by
  obtain ⟨m,hm,hap,htools⟩ := h
  refine List.any_eq_true.mpr ⟨m,List.mem_append_left _ (mem_sortFrom hap.1 (mem_merge hap hm) []),?_⟩
  simpa using htools

/-- Reasoning is kept: in chat mode there is none, or it is not to be dropped, or
there are tools. -/
def Keeps (o : Options) (ctx : List (Message F)) : Prop :=
  o.thinkingMode = .chat ∨ o.dropThinking = false ∨ ∃ m ∈ ctx, m.apart ∧ m.tools ≠ []

theorem Keeps.dropping {ctx : List (Message F)} (h : Keeps o ctx) (more : List (Message F)) :
    o.thinkingMode = .thinking →
      (o.dropThinking && !hasTools (sortToolResultsByCallOrder (mergeToolMessages ctx) ++ more)) = false := by
  intro hmode
  rcases h with h | h | h
  · rw [h] at hmode; cases hmode
  · rw [h,Bool.false_and]
  · rw [hasTools_sorted h,Bool.not_true,Bool.and_false]

theorem merge_ne_nil {ms : List (Message F)} (h : ms ≠ []) : mergeToolMessages ms ≠ [] := by
  obtain ⟨init,last,rfl⟩ := (List.eq_nil_or_concat ms).resolve_left h
  rw [mergeToolMessages,List.concat_eq_append,List.foldl_append]
  exact mergeStep_ne_nil _ _

/-- A conversation that goes on with the model's turn is encoded by the encoding
of what stands before and, in its context, of what comes after. -/
theorem encode_context {ctx msgs : List (Message F)} (hctx : ctx ≠ [])
    (hturn : ∀ m ∈ msgs.head?, m.answers) (hkeep : Keeps o ctx) :
    encodeMessages fl o (ctx ++ msgs) [] = (do
      let before ← encodeMessages fl o ctx []
      let after ← encodeMessages fl o msgs ctx
      return before ++ after) := by
  have hap : ∀ m ∈ msgs.head?, m.apart := fun m hm => (hturn m hm).apart
  obtain ⟨A,hA⟩ : ∃ A, sortToolResultsByCallOrder (mergeToolMessages ctx) = A := ⟨_,rfl⟩
  obtain ⟨B,hB⟩ : ∃ B, (sortToolResultsByCallOrder (ctx ++ mergeToolMessages msgs)).drop ctx.length = B := ⟨_,rfl⟩
  have hhead : ∀ m ∈ B.head?, m.answers := hB ▸ sorted_head hturn
  have hne : A.isEmpty = false := by
    cases A with
    | nil =>
      have hlen := congrArg List.length hA
      rw [sortToolResultsByCallOrder,length_sortFrom,List.length_nil] at hlen
      exact absurd (List.eq_nil_of_length_eq_zero hlen) (merge_ne_nil hctx)
    | cons a A => rfl
  have hfull : (sortToolResultsByCallOrder ([] ++ mergeToolMessages (ctx ++ msgs))).drop
      ([] : List (Message F)).length = A ++ B := by
    rw [List.nil_append,List.length_nil,List.drop_zero,sorted_append hap,hA,hB]
  have halone : (sortToolResultsByCallOrder ([] ++ mergeToolMessages ctx)).drop
      ([] : List (Message F)).length = A := by
    rw [List.nil_append,List.length_nil,List.drop_zero,hA]
  have hkAB := hA ▸ hkeep.dropping B
  have hkA := hA ▸ hkeep.dropping []
  rw [List.append_nil] at hkA
  have hnil : sortToolResultsByCallOrder (mergeToolMessages []) = ([] : List (Message F)) := rfl
  rw [encodeMessages_kept hnil hfull hkAB,encodeMessages_kept hnil halone hkA,encodeMessages_kept hA hB hkAB]
  simp only [List.nil_append,List.length_nil]
  have hspan : renderSpan fl o (o.dropThinking && !hasTools (A ++ B)) 0 A.length (A ++ B) =
      renderSpan fl o (o.dropThinking && !hasTools A) 0 A.length A :=
    renderSpan_kept hhead fun hmode => ⟨hkAB hmode,hkA hmode⟩
  rw [List.length_append,renderSpan_append,hspan,Nat.zero_add]
  cases renderSpan fl o (o.dropThinking && !hasTools A) 0 A.length A with
  | error e => rfl
  | ok xs =>
    cases renderSpan fl o (o.dropThinking && !hasTools (A ++ B)) A.length B.length (A ++ B) with
    | error e => rfl
    | ok ys =>
      have hstart : startText o A = [] := by rw [startText,hne,Bool.and_false]; rfl
      have hflat : ∀ t : Str, t ++ (xs ++ ys).flatten = t ++ xs.flatten ++ ys.flatten := fun t => by
        rw [List.flatten_append,List.append_assoc]
      simp only [ok_bind,hstart,List.nil_append]
      exact congrArg Except.ok (hflat _)

def question : Message Unit where
  role := .user
  content := .text "q".toList

def answer : Message Unit where
  role := .assistant
  content := .text "a".toList

def chatting : Options where
  thinkingMode := .chat

theorem encode_context_answer :
    encodeMessages noFloats chatting ([question] ++ [answer]) [] = (do
      let before ← encodeMessages noFloats chatting [question] []
      let after ← encodeMessages noFloats chatting [answer] [question]
      return before ++ after) :=
  encode_context (List.cons_ne_nil question []) (fun _ h => by cases h; exact .inl rfl) (.inl rfl)

def Taskless (ms : List (Message F)) : Prop := ∀ m ∈ ms, m.task = none

/-- A property that a message keeps with other blocks and that the user message
which the merge makes of a message has when that message has it. -/
structure Merges (q : Message F → Prop) : Prop where
  blocks : ∀ m bs, q m → q { m with contentBlocks := bs }
  made : ∀ m u : Message F, u.tools = [] → (m.task = none → u.task = none) → q m → q u

theorem merges_task : Merges fun m : Message F => m.task = none :=
  ⟨fun _ _ h => h,fun _ _ _ hu h => hu h⟩

theorem merges_tools : Merges fun m : Message F => m.tools = [] :=
  ⟨fun _ _ h => h,fun _ _ hu _ _ => hu⟩

theorem Merges.merge {q : Message F → Prop} (hq : Merges q) {ms : List (Message F)} (h : ∀ m ∈ ms, q m) :
    ∀ m ∈ mergeToolMessages ms, q m := by
  have hconcat : ∀ {l : List (Message F)} {x : Message F}, (∀ m ∈ l, q m) → q x → ∀ m ∈ l ++ [x], q m := by
    intro l x hl hx m hm
    rcases List.mem_append.mp hm with hm | hm
    · exact hl m hm
    · rw [List.mem_singleton.mp hm]
      exact hx
  induction ms using List.reverseRecOn with
  | nil => exact fun m hm => absurd hm List.not_mem_nil
  | append_singleton ms x ih =>
    have hms := ih fun m hm => h m (List.mem_append_left _ hm)
    have hx := h x (List.mem_append_right _ (List.mem_singleton_self x))
    rw [mergeToolMessages] at hms
    rw [mergeToolMessages,List.foldl_append,List.foldl_cons,List.foldl_nil]
    by_cases hap : x.apart
    · rw [mergeStep_apart hap]
      exact hconcat hms hx
    · obtain ⟨b,u,_,htools,htask,he | ⟨init,last,hl,_,he⟩⟩ := mergeStep_user hap (ms.foldl mergeStep [])
      · rw [he]
        exact hconcat hms (hq.made x u htools htask hx)
      · rw [hl] at hms
        rw [he]
        exact hconcat (fun m hm => hms m (List.mem_append_left _ hm))
          (hq.blocks last _ (hms last (List.mem_append_right _ (List.mem_singleton_self last))))

theorem Merges.sortFrom {q : Message F → Prop} (hq : Merges q) {ms : List (Message F)} (h : ∀ m ∈ ms, q m)
    (order : List (Str × Nat)) : ∀ m ∈ sortFrom order ms, q m := by
  induction ms generalizing order with
  | nil => exact h
  | cons m ms ih =>
    have hrest : ∀ order, ∀ x ∈ Chat.sortFrom order ms, q x := ih fun x hx => h x (List.mem_cons_of_mem _ hx)
    have hm := h m List.mem_cons_self
    rw [Chat.sortFrom]
    split_ifs
    · exact List.forall_mem_cons.mpr ⟨hm,hrest _⟩
    · exact List.forall_mem_cons.mpr ⟨hq.blocks m _ hm,hrest _⟩
    · exact List.forall_mem_cons.mpr ⟨hm,hrest _⟩

theorem renderMessage_assistant {A B : List (Message F)} {a : Message F} {d : Bool} (hA : A ≠ [])
    (htasks : Taskless A) (ha : a.role = .assistant) (htask : a.task = none) {t : Str}
    (hkeep : o.thinkingMode = .thinking → d = false)
    (h : renderMessage fl o.thinkingMode d o.reasoningEffort A.length (A ++ a :: B) = .ok t) :
    completion fl (o.thinkingMode = .thinking) a = .ok t := by
  have hget : (A ++ a :: B)[A.length]? = some a := by
    rw [List.getElem?_append_right (Nat.le_refl _),Nat.sub_self]
    rfl
  have hpos := List.length_pos_of_ne_nil hA
  have hprev : prevHasTask A.length (A ++ a :: B) = false := by
    unfold prevHasTask
    rw [List.getElem?_append_left (by omega)]
    cases hm : A[A.length-1]? with
    | none => rw [Option.bind_none]; simp
    | some m => rw [Option.bind_some,htasks m (List.mem_of_getElem? hm)]; simp
  have hflag : (decide (o.thinkingMode = .thinking) && !prevHasTask A.length (A ++ a :: B) &&
      (!d || decide (findLastUserIndex (A ++ a :: B) < (A.length : Int)))) =
        decide (o.thinkingMode = .thinking) := by
    rw [hprev]
    cases hmode : o.thinkingMode with
    | chat => rfl
    | thinking => rw [hkeep hmode]; rfl
  have htrans : transition o.thinkingMode d A.length (A ++ a :: B) a = .ok [] := by
    have huser : a.isUser = false := by rw [Message.isUser,ha]; rfl
    rw [transition,htask]
    simp only [huser]
    rfl
  rw [renderMessage,hget] at h
  simp only [renderBody,ha,hflag,htrans] at h
  obtain ⟨body,hbody,h⟩ := bind_eq_ok.mp h
  obtain ⟨_,_,hbody⟩ := bind_eq_ok.mp hbody
  have hne : ¬ (A.length = 0 ∧ o.thinkingMode = .thinking ∧ o.reasoningEffort = some .max) := fun h0 => by
    omega
  rw [if_neg hne] at h
  rw [hbody]
  split_ifs at h
  · rw [ok_bind] at h
    cases h
    rw [List.nil_append,List.append_nil]
  · cases h
    rfl

/-- The prompt of the next turn begins with the prompt of this turn and the
completion that answered it. -/
theorem next_turn_extends {ctx more : List (Message F)} {a : Message F} (hctx : ctx ≠ [])
    (htasks : Taskless ctx) (ha : a.role = .assistant) (htask : a.task = none) (hkeep : Keeps o ctx) {full : Str}
    (hfull : encodeMessages fl o (ctx ++ a :: more) [] = .ok full) :
    ∃ prompt text rest, encodeMessages fl o ctx [] = .ok prompt ∧
      completion fl (o.thinkingMode = .thinking) a = .ok text ∧ full = prompt ++ (text ++ rest) := by
  have hans : a.answers := .inl ha
  have hturn : ∀ m ∈ (a :: more).head?, m.answers := fun m hm => by cases hm; exact hans
  rw [encode_context hctx hturn hkeep] at hfull
  obtain ⟨prompt,hprompt,hfull⟩ := bind_eq_ok.mp hfull
  obtain ⟨after,hafter,hfull⟩ := bind_eq_ok.mp hfull
  cases hfull
  obtain ⟨A,hA⟩ : ∃ A, sortToolResultsByCallOrder (mergeToolMessages ctx) = A := ⟨_,rfl⟩
  obtain ⟨B,hB⟩ : ∃ B, (sortToolResultsByCallOrder (ctx ++ mergeToolMessages (a :: more))).drop ctx.length =
      a :: B := by
    obtain ⟨rest,hrest⟩ := merge_head hans.apart more
    obtain ⟨rest',hrest'⟩ := sortFrom_cons hans.apart.1 (orderAfter [] ctx) rest
    refine ⟨rest',?_⟩
    rw [hrest,sortToolResultsByCallOrder,sortFrom_append,← length_sortFrom [] ctx,List.drop_left,hrest']
  have hne : A ≠ [] := by
    rintro rfl
    have hlen := congrArg List.length hA
    rw [sortToolResultsByCallOrder,length_sortFrom,List.length_nil] at hlen
    exact merge_ne_nil hctx (List.eq_nil_of_length_eq_zero hlen)
  have hkAB := hA ▸ hkeep.dropping (a :: B)
  have hempty : startText o A = [] := by
    rw [startText,List.isEmpty_eq_false_iff.mpr hne,Bool.and_false]
    rfl
  rw [encodeMessages_kept hA hB hkAB,List.length_cons,Nat.add_comm,renderSpan_append] at hafter
  obtain ⟨texts,htexts,hafter⟩ := bind_eq_ok.mp hafter
  obtain ⟨xs,hxs,htexts⟩ := bind_eq_ok.mp htexts
  obtain ⟨ys,_,htexts⟩ := bind_eq_ok.mp htexts
  cases htexts
  cases hafter
  obtain ⟨text,rfl,htext⟩ : ∃ text, xs = [text] ∧ renderMessage fl o.thinkingMode
      (o.dropThinking && !hasTools (A ++ a :: B)) o.reasoningEffort A.length (A ++ a :: B) = .ok text := by
    rw [renderSpan] at hxs
    cases mapM_eq_ok.mp hxs with
    | cons h hnil =>
      cases hnil
      exact ⟨_,rfl,h⟩
  refine ⟨prompt,text,ys.flatten,hprompt,?_,?_⟩
  · refine renderMessage_assistant hne ?_ ha htask hkAB htext
    rw [← hA]
    exact merges_task.sortFrom (merges_task.merge htasks) []
  · rw [hempty,List.nil_append,List.flatten_append,List.flatten_cons,List.flatten_nil,List.append_nil]

def dialogueText : Str :=
  "<｜begin▁of▁sentence｜><｜User｜>q<｜Assistant｜></think>a<｜end▁of▁sentence｜><｜User｜>q<｜Assistant｜></think>".toList

theorem next_turn_extends_dialogue :
    ∃ prompt text rest, encodeMessages noFloats chatting [question] [] = .ok prompt ∧
      completion noFloats false answer = .ok text ∧ dialogueText = prompt ++ (text ++ rest) :=
  next_turn_extends (List.cons_ne_nil question []) (fun _ h => by cases List.mem_singleton.mp h; rfl) rfl rfl (.inl rfl)
    (show encodeMessages noFloats chatting ([question] ++ answer :: [question]) [] = .ok dialogueText by decide +kernel)

end Encode

end SglangLite.Chat
