import Mathlib.Data.List.Perm.Basic
import SglangLite.Chat.Turns

set_option autoImplicit false

namespace SglangLite.Chat

open JsonText

variable {F : Type} {fl : Floats F} {o : Options}

theorem encodeMessages_congr {xs ys : List (Message F)}
    (h : sortToolResultsByCallOrder (mergeToolMessages xs) = sortToolResultsByCallOrder (mergeToolMessages ys)) :
    encodeMessages fl o xs [] = encodeMessages fl o ys [] := by
  unfold encodeMessages
  simp only [List.nil_append,h]

section Results

def resultBlock (t : Message F) : Block := .toolResult t.toolCallId t.content

def textBlock (u : Message F) : Block := .text u.content

def holding (F : Type) (bs : List Block) : Message F where
  role := .user
  contentBlocks := some bs

theorem mergeStep_tool {t : Message F} (ht : t.role = .tool) (acc : List (Message F)) (bs : List Block) :
    mergeStep (acc ++ [holding F bs]) t = acc ++ [holding F (bs ++ [resultBlock t])] := by
  rw [mergeStep,ht]
  simp only [mergeInto,List.getLast?_concat,List.dropLast_concat]
  rfl

theorem mergeStep_text {u : Message F} (hu : u.role = .user) (acc : List (Message F)) (bs : List Block) :
    mergeStep (acc ++ [holding F bs]) u = acc ++ [holding F (bs ++ [textBlock u])] := by
  rw [mergeStep,hu]
  simp only [mergeInto,List.getLast?_concat,List.dropLast_concat]
  rfl

/-- The results of the tool calls of a message, with the user messages after
them, become one message. -/
theorem merge_results {a t : Message F} {ts us : List (Message F)} (ha : a.role = .assistant)
    (hts : ∀ x ∈ t :: ts, x.role = .tool) (hus : ∀ u ∈ us, u.role = .user) :
    mergeToolMessages (a :: (t :: ts ++ us)) =
      [a,holding F ((t :: ts).map resultBlock ++ us.map textBlock)] := by
  have hfirst : mergeStep [a] t = [a] ++ [holding F [resultBlock t]] := by
    have hno : a.merging = false := by rw [Message.merging,ha]; rfl
    rw [mergeStep,hts t List.mem_cons_self]
    simp only [mergeInto,List.getLast?_singleton,hno]
    rfl
  have htools : ∀ (ts : List (Message F)) (bs : List Block), (∀ x ∈ ts, x.role = .tool) →
      ts.foldl mergeStep ([a] ++ [holding F bs]) = [a] ++ [holding F (bs ++ ts.map resultBlock)] := by
    intro ts
    induction ts with
    | nil => intro bs _; rw [List.map_nil,List.append_nil]; rfl
    | cons x ts ih =>
      intro bs h
      rw [List.foldl_cons,mergeStep_tool (h x List.mem_cons_self),
        ih _ fun y hy => h y (List.mem_cons_of_mem _ hy),List.map_cons,List.append_assoc]
      rfl
  have htexts : ∀ (us : List (Message F)) (bs : List Block), (∀ x ∈ us, x.role = .user) →
      us.foldl mergeStep ([a] ++ [holding F bs]) = [a] ++ [holding F (bs ++ us.map textBlock)] := by
    intro us
    induction us with
    | nil => intro bs _; rw [List.map_nil,List.append_nil]; rfl
    | cons x us ih =>
      intro bs h
      rw [List.foldl_cons,mergeStep_text (h x List.mem_cons_self),
        ih _ fun y hy => h y (List.mem_cons_of_mem _ hy),List.map_cons,List.append_assoc]
      rfl
  have hapart : a.apart := Message.answers.apart (.inl ha)
  rw [mergeToolMessages,List.foldl_cons,mergeStep_apart hapart,List.nil_append,List.cons_append,List.foldl_cons,
    hfirst,List.foldl_append,htools ts _ fun x hx => hts x (List.mem_cons_of_mem _ hx),htexts us _ hus]
  rfl

theorem refill_results {rs sorted texts : List Block} (hrs : ∀ b ∈ rs, b.isResult = true)
    (htexts : ∀ b ∈ texts, b.isResult = false) (hlen : sorted.length = rs.length) :
    refill (rs ++ texts) sorted = sorted ++ texts := by
  induction rs generalizing sorted with
  | nil =>
    obtain rfl := List.eq_nil_of_length_eq_zero hlen
    induction texts with
    | nil => rfl
    | cons b bs ih =>
      rw [List.nil_append] at ih ⊢
      rw [refill,htexts b List.mem_cons_self,if_neg (by decide),
        ih fun x hx => htexts x (List.mem_cons_of_mem _ hx)]
  | cons b rs ih =>
    cases sorted with
    | nil => cases hlen
    | cons s ss =>
      rw [List.cons_append,refill,hrs b List.mem_cons_self,if_pos rfl]
      rw [ih (fun x hx => hrs x (List.mem_cons_of_mem _ hx)) (Nat.succ.inj hlen)]
      rfl

theorem exists_callOrder {calls : List ToolCall} {x : Str} (hx : x ≠ [] ∧ x ∈ calls.map ToolCall.callId) :
    ∃ i, (x,i) ∈ callOrder calls := by
  obtain ⟨c,hc,rfl⟩ := List.mem_map.mp hx.2
  obtain ⟨i,hi⟩ := List.getElem?_of_mem hc
  refine ⟨i,List.mem_reverse.mpr (List.mem_filterMap.mpr ⟨(c,i),List.mem_zipIdx_iff_getElem?.mpr hi,?_⟩)⟩
  rw [if_neg hx.1]

theorem mem_callOrder {calls : List ToolCall} {e : Str × Nat} (he : e ∈ callOrder calls) :
    (calls[e.2]?).map ToolCall.callId = some e.1 := by
  obtain ⟨c,hc,hsome⟩ := List.mem_filterMap.mp (List.mem_reverse.mp he)
  split_ifs at hsome
  cases hsome
  rw [List.mem_zipIdx_iff_getElem?.mp hc]
  rfl

/-- The call of an id stands at the place that the id is sorted by. -/
theorem orderKey_spec {calls : List ToolCall} {x : Str} (hx : x ≠ [] ∧ x ∈ calls.map ToolCall.callId) :
    (calls[orderKey (callOrder calls) x]?).map ToolCall.callId = some x := by
  obtain ⟨i,hi⟩ := exists_callOrder hx
  cases hf : (callOrder calls).find? fun e => e.1 = x with
  | none => exact absurd (decide_eq_true rfl) (List.find?_eq_none.mp hf _ hi)
  | some e =>
    have hid : e.1 = x := by simpa using List.find?_some hf
    rw [orderKey,hf,Option.map_some,Option.getD_some,mem_callOrder (List.mem_of_find?_eq_some hf),hid]

theorem orderKey_injective {calls : List ToolCall} {x y : Str} (hx : x ≠ [] ∧ x ∈ calls.map ToolCall.callId)
    (hy : y ≠ [] ∧ y ∈ calls.map ToolCall.callId)
    (h : orderKey (callOrder calls) x = orderKey (callOrder calls) y) : x = y := by
  have h1 := orderKey_spec hx
  rw [h,orderKey_spec hy] at h1
  exact (Option.some.inj h1).symm

/-- Results of different calls are put in one order, whatever the order they come
in. -/
theorem sortBlocks_perm {calls : List ToolCall} {rs rs' texts : List Block} (hperm : rs.Perm rs')
    (hrs : ∀ b ∈ rs, b.isResult = true) (htexts : ∀ b ∈ texts, b.isResult = false)
    (hknown : ∀ b ∈ rs, b.useId ≠ [] ∧ b.useId ∈ calls.map ToolCall.callId)
    (hdistinct : ∀ b ∈ rs, ∀ b' ∈ rs, b.useId = b'.useId → b = b') :
    sortBlocks (callOrder calls) (rs ++ texts) = sortBlocks (callOrder calls) (rs' ++ texts) := by
  let le : Block → Block → Bool := fun a b =>
    orderKey (callOrder calls) a.useId ≤ orderKey (callOrder calls) b.useId
  have hle_trans : ∀ a b c, le a b = true → le b c = true → le a c = true := fun a b c h1 h2 =>
    decide_eq_true (Nat.le_trans (of_decide_eq_true h1) (of_decide_eq_true h2))
  have hle_total : ∀ a b, (le a b || le b a) = true := fun a b => by
    simp only [le,Bool.or_eq_true,decide_eq_true_eq]
    exact Nat.le_total _ _
  have hfilter : ∀ {l : List Block}, (∀ b ∈ l, b.isResult = true) → (l ++ texts).filter Block.isResult = l := by
    intro l hl
    rw [List.filter_append,List.filter_eq_self.mpr hl,List.filter_eq_nil_iff.mpr,List.append_nil]
    intro b hb
    rw [htexts b hb]
    decide
  have hrs' : ∀ b ∈ rs', b.isResult = true := fun b hb => hrs b (hperm.mem_iff.mpr hb)
  have hsort : rs.mergeSort le = rs'.mergeSort le := by
    have hanti : ∀ a b, a ∈ rs.mergeSort le → b ∈ rs'.mergeSort le → le a b = true → le b a = true → a = b := by
      intro a b ha hb h1 h2
      have ha' := List.mem_mergeSort.mp ha
      have hb' := hperm.mem_iff.mpr (List.mem_mergeSort.mp hb)
      exact hdistinct a ha' b hb' (orderKey_injective (hknown a ha') (hknown b hb')
        (Nat.le_antisymm (of_decide_eq_true h1) (of_decide_eq_true h2)))
    exact List.Perm.eq_of_pairwise hanti (List.pairwise_mergeSort hle_trans hle_total rs)
      (List.pairwise_mergeSort hle_trans hle_total rs')
      ((List.mergeSort_perm rs le).trans (hperm.trans (List.mergeSort_perm rs' le).symm))
  have hrefill : ∀ {l : List Block}, (∀ b ∈ l, b.isResult = true) →
      refill (l ++ texts) (l.mergeSort le) = l.mergeSort le ++ texts := fun hl =>
    refill_results hl htexts (List.length_mergeSort _)
  unfold sortBlocks
  simp only [hfilter hrs,hfilter hrs',← hperm.length_eq]
  split_ifs with hmany
  · rw [hrefill hrs,hrefill hrs',hsort]
  · have hone : rs.length ≤ 1 := by
      by_contra hlt
      refine hmany ⟨Nat.lt_of_not_le hlt,fun hnil => ?_⟩
      obtain ⟨b,bs,rfl⟩ : ∃ b bs, rs = b :: bs := by
        cases rs with
        | nil => exact absurd (Nat.zero_le 1) hlt
        | cons b bs => exact ⟨b,bs,rfl⟩
      obtain ⟨i,hi⟩ := exists_callOrder (hknown b List.mem_cons_self)
      rw [hnil] at hi
      exact absurd hi List.not_mem_nil
    cases rs with
    | nil => rw [hperm.nil_eq]
    | cons b bs =>
      obtain rfl : bs = [] := List.eq_nil_of_length_eq_zero (by rw [List.length_cons] at hone; omega)
      rw [List.perm_singleton.mp hperm.symm]

def asking : Message Unit where
  role := .assistant
  toolCalls := [{ id := ['1'], name := ['f'], arguments := [] },{ id := ['2'], name := ['g'], arguments := [] }]

def result (id : Char) : Message Unit where
  role := .tool
  toolCallId := [id]

end Results

section Reasoning

def Message.forget (m : Message F) : Message F :=
  if m.role = .assistant then { m with reasoningContent := [] } else m

theorem role_forget (m : Message F) : m.forget.role = m.role := by
  unfold Message.forget
  split_ifs <;> rfl

theorem forget_of_ne {m : Message F} (h : m.role ≠ .assistant) : m.forget = m := if_neg h

theorem apart_forget {m : Message F} : m.forget.apart ↔ m.apart := by
  unfold Message.apart
  rw [role_forget]

theorem mergeInto_forget (l : List (Message F)) (ok : Message F → Bool) (b : Block) {new : Message F}
    (hnew : new.role = .user) :
    mergeInto (l.map Message.forget) ok b new = (mergeInto l ok b new).map Message.forget := by
  have hn : new.forget = new := forget_of_ne (by rw [hnew]; decide)
  rw [mergeInto,mergeInto,List.getLast?_map]
  cases hl : l.getLast? with
  | none => rw [Option.map_none,List.map_append,List.map_singleton,hn]
  | some last =>
    rw [Option.map_some]
    by_cases hu : last.role = .user
    · have hf : ∀ m : Message F, m.role = .user → m.forget = m := fun m hm => forget_of_ne (by rw [hm]; decide)
      have hadd : (last.addBlock b).forget = last.addBlock b := hf _ hu
      rw [hf last hu]
      simp only
      split_ifs
      · rw [List.map_append,List.map_singleton,hadd,List.map_dropLast]
      · rw [List.map_append,List.map_singleton,hn]
    · have hno : ∀ m : Message F, m.role ≠ .user → (m.merging && ok m) = false := fun m hm => by
        rw [Message.merging,decide_eq_false hm]; rfl
      simp only
      rw [hno last hu,hno last.forget (by rwa [role_forget])]
      simp only [Bool.false_eq_true,if_false,List.map_append,List.map_singleton,hn]

theorem merge_concat (ms : List (Message F)) (m : Message F) :
    mergeToolMessages (ms ++ [m]) = mergeStep (mergeToolMessages ms) m := by
  rw [mergeToolMessages,List.foldl_append]
  rfl

theorem mergeStep_forget (l : List (Message F)) (m : Message F) :
    mergeStep (l.map Message.forget) m.forget = (mergeStep l m).map Message.forget := by
  by_cases hm : m.apart
  · rw [mergeStep_apart hm,mergeStep_apart (apart_forget.mpr hm),List.map_append,List.map_singleton]
  · have hna : m.role ≠ .assistant := fun h => hm (Message.answers.apart (.inl h))
    rw [forget_of_ne hna]
    rcases Message.not_apart hm with h | h
    · simp only [mergeStep,h]
      exact mergeInto_forget _ _ _ rfl
    · simp only [mergeStep,h]
      exact mergeInto_forget _ _ _ rfl

theorem merge_forget (ms : List (Message F)) :
    mergeToolMessages (ms.map Message.forget) = (mergeToolMessages ms).map Message.forget := by
  induction ms using List.reverseRecOn with
  | nil => rfl
  | append_singleton ms m ih =>
    rw [List.map_append,List.map_singleton,merge_concat,merge_concat,ih,mergeStep_forget]

theorem mergeStep_isUser {u : Message F} (hu : u.isUser ∨ u.role = .tool) (l : List (Message F)) :
    ∃ init v, v.isUser ∧ init <+: l ∧ mergeStep l u = init ++ [v] := by
  by_cases hap : u.apart
  · exact ⟨l,u,hu.resolve_right hap.2,List.prefix_refl l,mergeStep_apart hap l⟩
  · obtain ⟨b,v,hv,_,_,h | ⟨init,last,rfl,hlast,h⟩⟩ := mergeStep_user hap l
    · exact ⟨l,v,by rw [Message.isUser,hv]; rfl,List.prefix_refl l,h⟩
    · refine ⟨init,last.addBlock b,?_,List.prefix_append init [last],h⟩
      have hadd : (last.addBlock b).role = .user := hlast
      rw [Message.isUser,hadd]
      rfl

theorem foldl_mergeStep_isUser {v : Message F} (hv : v.isUser) (ms : List (Message F)) :
    ∃ w rest, w.isUser ∧ ms.foldl mergeStep [v] = w :: rest := by
  have hstep : ∀ (w : Message F) (l : List (Message F)) (m : Message F), w.isUser →
      ∃ w' l', w'.isUser ∧ mergeStep (w :: l) m = w' :: l' := by
    intro w l m hw
    by_cases hm : m.apart
    · exact ⟨w,l ++ [m],hw,mergeStep_apart hm _⟩
    · obtain ⟨b,u,_,_,_,h | ⟨init,last,hl,_,h⟩⟩ := mergeStep_user hm (w :: l)
      · exact ⟨w,l ++ [u],hw,h⟩
      · cases init with
        | nil =>
          cases hl
          exact ⟨w.addBlock b,[],hw,h⟩
        | cons x init =>
          cases hl
          exact ⟨w,init ++ [last.addBlock b],hw,h⟩
  induction ms using List.reverseRecOn with
  | nil => exact ⟨v,[],hv,rfl⟩
  | append_singleton ms m ih =>
    obtain ⟨w,rest,hw,h⟩ := ih
    rw [List.foldl_append,h]
    exact hstep w rest m hw

theorem sortFrom_isUser {w : Message F} (hw : w.isUser) (order : List (Str × Nat)) (ms : List (Message F)) :
    ∃ w' rest, w'.isUser ∧ sortFrom order (w :: ms) = w' :: rest := by
  rw [sortFrom]
  split_ifs
  · exact ⟨_,_,hw,rfl⟩
  · exact ⟨{ w with contentBlocks := w.contentBlocks.map (sortBlocks order) },_,hw,rfl⟩
  · exact ⟨_,_,hw,rfl⟩

theorem sortFrom_forget (order : List (Str × Nat)) (ms : List (Message F)) :
    sortFrom order (ms.map Message.forget) = (sortFrom order ms).map Message.forget ∧
      orderAfter order (ms.map Message.forget) = orderAfter order ms := by
  induction ms generalizing order with
  | nil => exact ⟨rfl,rfl⟩
  | cons m ms ih =>
    have hcalls : m.forget.toolCalls = m.toolCalls := by
      unfold Message.forget
      split_ifs <;> rfl
    rw [List.map_cons,sortFrom,sortFrom,orderAfter,orderAfter,List.foldl_cons,List.foldl_cons,role_forget,hcalls]
    split_ifs with ha hu
    · rw [(ih _).1,List.map_cons]
      exact ⟨rfl,(ih _).2⟩
    · rw [(ih _).1,List.map_cons,forget_of_ne (m := m) (by rw [hu]; decide)]
      refine ⟨?_,(ih _).2⟩
      rw [forget_of_ne]
      rw [hu]
      decide
    · rw [(ih _).1,List.map_cons]
      exact ⟨rfl,(ih _).2⟩

theorem lastIndex_append {p : Message F → Bool} {ys : List (Message F)} (h : 0 ≤ lastIndex p ys)
    (xs : List (Message F)) : lastIndex p (xs ++ ys) = xs.length+lastIndex p ys := by
  induction xs with
  | nil => rw [List.nil_append,List.length_nil]; omega
  | cons x xs ih =>
    rw [List.cons_append,lastIndex,ih,List.length_cons,if_pos (by omega)]
    omega

theorem lastIndex_cons {p : Message F → Bool} {y : Message F} (h : p y) (ys : List (Message F)) :
    0 ≤ lastIndex p (y :: ys) := by
  rw [lastIndex]
  simp only [h,if_true]
  split_ifs <;> omega

/-- What `_drop_thinking_messages` makes of a message before the last user
message. -/
def dropped (m : Message F) : Option (Message F) :=
  if m.role.kept then some m
  else if m.role = .assistant then some { m with reasoningContent := [] }
  else none

theorem dropped_forget (m : Message F) : dropped m.forget = dropped m := by
  by_cases h : m.role = .assistant
  · have hforget : m.forget = { m with reasoningContent := [] } := if_pos h
    rw [dropped,dropped,role_forget,h,hforget]
    rfl
  · rw [forget_of_ne h]

theorem dropThinking_append {xs ys : List (Message F)} {w : Message F} (hw : w.isUser) :
    dropThinkingMessages (xs ++ w :: ys) = xs.filterMap dropped ++ dropThinkingMessages (w :: ys) := by
  have hpos : 0 ≤ findLastUserIndex (w :: ys) := lastIndex_cons hw ys
  have hlast : findLastUserIndex (xs ++ w :: ys) = xs.length+findLastUserIndex (w :: ys) := lastIndex_append hpos xs
  rw [dropThinkingMessages,dropThinkingMessages,hlast]
  simp only
  rw [List.zipIdx_append,List.filterMap_append]
  congr 1
  · have hzip : xs.filterMap dropped = xs.zipIdx.filterMap fun e => dropped e.1 := by
      conv_lhs => rw [← List.zipIdx_map_fst 0 xs]
      rw [List.filterMap_map]
      rfl
    rw [hzip]
    refine List.filterMap_congr fun e he => ?_
    have hlt := List.snd_lt_of_mem_zipIdx he
    have hno : ¬ ((xs.length : Int)+findLastUserIndex (w :: ys) ≤ (e.2 : Int)) := by omega
    rw [dropped,decide_eq_false hno,Bool.or_false]
  · rw [Nat.zero_add,List.zipIdx_eq_map_add,List.filterMap_map]
    refine List.filterMap_congr fun e _ => ?_
    have hiff : (xs.length : Int)+findLastUserIndex (w :: ys) ≤ ((xs.length+e.2 : Nat) : Int) ↔
        findLastUserIndex (w :: ys) ≤ (e.2 : Int) := by omega
    simp only [Function.comp_apply,hiff]

theorem tools_forget (m : Message F) : m.forget.tools = m.tools := by
  unfold Message.forget
  split_ifs <;> rfl

theorem hasTools_eq_false {ms : List (Message F)} (h : ∀ m ∈ ms, m.tools = []) :
    hasTools (sortToolResultsByCallOrder (mergeToolMessages ms)) = false := by
  refine List.any_eq_false.mpr fun m hm => ?_
  rw [merges_tools.sortFrom (merges_tools.merge h) [] m hm]
  exact Bool.false_ne_true

/-- The prompt of messages without tools depends on what is left of them. -/
theorem encodeMessages_dropped (hmode : o.thinkingMode = .thinking) (hdrop : o.dropThinking = true)
    {xs ys : List (Message F)} (hxs : ∀ m ∈ xs, m.tools = []) (hys : ∀ m ∈ ys, m.tools = [])
    (h : dropThinkingMessages (sortToolResultsByCallOrder (mergeToolMessages xs)) =
      dropThinkingMessages (sortToolResultsByCallOrder (mergeToolMessages ys))) :
    encodeMessages fl o xs [] = encodeMessages fl o ys [] := by
  have hx := hasTools_eq_false hxs
  have hy := hasTools_eq_false hys
  have hnil : sortToolResultsByCallOrder (mergeToolMessages []) = ([] : List (Message F)) := rfl
  have hr : ∀ l : List (Message F), toRender o true [] l =
      (dropThinkingMessages l,(dropThinkingMessages l).length) := fun l => by
    rw [toRender,if_pos ⟨hmode,rfl⟩]
    rfl
  unfold hasTools at hx hy
  unfold encodeMessages
  simp only [List.nil_append,List.length_nil,List.drop_zero,hnil,hx,hy,hdrop,Bool.not_false,Bool.and_true]
  rw [hr,hr,h]

/-- What the model thought before the last user message does not reach the
prompt. -/
theorem old_reasoning_unseen {old new : List (Message F)} {u : Message F} (hmode : o.thinkingMode = .thinking)
    (hdrop : o.dropThinking = true) (htools : ∀ m ∈ old ++ u :: new, m.tools = [])
    (hu : u.isUser ∨ u.role = .tool) :
    encodeMessages fl o (old.map Message.forget ++ u :: new) [] = encodeMessages fl o (old ++ u :: new) [] := by
  have hna : u.role ≠ .assistant := fun h => by
    rw [Message.isUser,h] at hu
    exact absurd hu (by decide)
  obtain ⟨init,v,hv,_,hinit⟩ := mergeStep_isUser hu (mergeToolMessages old)
  have hvf : v.forget = v := forget_of_ne fun h => by
    rw [Message.isUser,h] at hv
    exact absurd hv (by decide)
  obtain ⟨w,rest,hw,hrest⟩ := foldl_mergeStep_isUser hv new
  have hplain : mergeToolMessages (old ++ u :: new) = init ++ w :: rest := by
    rw [mergeToolMessages,List.foldl_append,List.foldl_cons,← mergeToolMessages,hinit,
      foldl_mergeStep_append (List.cons_ne_nil v []),hrest]
  have hforgot : mergeToolMessages (old.map Message.forget ++ u :: new) = init.map Message.forget ++ w :: rest := by
    have hstep := mergeStep_forget (mergeToolMessages old) u
    rw [forget_of_ne hna,← merge_forget,hinit,List.map_append,List.map_singleton,hvf] at hstep
    rw [mergeToolMessages,List.foldl_append,List.foldl_cons,← mergeToolMessages,hstep,
      foldl_mergeStep_append (List.cons_ne_nil v []),hrest]
  obtain ⟨w',rest',hw',hsort⟩ := sortFrom_isUser hw (orderAfter [] init) rest
  refine encodeMessages_dropped hmode hdrop (fun m hm => ?_) htools ?_
  · rcases List.mem_append.mp hm with hm | hm
    · obtain ⟨x,hx,rfl⟩ := List.mem_map.mp hm
      rw [tools_forget]
      exact htools x (List.mem_append_left _ hx)
    · exact htools m (List.mem_append_right _ hm)
  · rw [hplain,hforgot,sortToolResultsByCallOrder,sortToolResultsByCallOrder,sortFrom_append,sortFrom_append,
      (sortFrom_forget [] init).1,(sortFrom_forget [] init).2,hsort,dropThinking_append hw',
      dropThinking_append hw',List.filterMap_map]
    refine congrArg (· ++ _) (List.filterMap_congr fun m _ => ?_)
    exact dropped_forget m

def thought : Message Unit where
  role := .assistant
  content := .text "a".toList
  reasoningContent := "r".toList

def thinking : Options where
  thinkingMode := .thinking

theorem old_reasoning_unseen_thought :
    encodeMessages noFloats thinking ([question,thought].map Message.forget ++ question :: [thought]) [] =
      encodeMessages noFloats thinking ([question,thought] ++ question :: [thought]) [] :=
  old_reasoning_unseen rfl rfl (by simp [question,thought]) (.inl rfl)

end Reasoning

section Context

theorem merge_apart {ms : List (Message F)} (h : ∀ m ∈ ms, m.apart) : mergeToolMessages ms = ms := by
  induction ms using List.reverseRecOn with
  | nil => rfl
  | append_singleton ms m ih =>
    rw [merge_concat,ih fun x hx => h x (List.mem_append_left _ hx),
      mergeStep_apart (h m (List.mem_append_right _ (List.mem_singleton_self m)))]

theorem sortFrom_apart {ms : List (Message F)} (h : ∀ m ∈ ms, m.apart) (order : List (Str × Nat)) :
    sortFrom order ms = ms := by
  induction ms generalizing order with
  | nil => rfl
  | cons m ms ih =>
    have hms := fun x hx => h x (List.mem_cons_of_mem m hx)
    rw [sortFrom,if_neg (h m List.mem_cons_self).1,ih hms,ih hms,ite_self]

theorem lastIndex_none {p : Message F → Bool} {ms : List (Message F)} (h : ∀ m ∈ ms, p m = false) :
    lastIndex p ms = -1 := by
  induction ms with
  | nil => rfl
  | cons m ms ih =>
    rw [lastIndex,ih fun x hx => h x (List.mem_cons_of_mem _ hx),h m List.mem_cons_self]
    decide

theorem dropThinking_last {d : Message F} {post : List (Message F)} (hpost : ∀ m ∈ post, m.isUser = false) :
    dropThinkingMessages (d :: post) = d :: post := by
  have hlast : findLastUserIndex (d :: post) ≤ 0 := by
    rw [findLastUserIndex,lastIndex,lastIndex_none hpost]
    split_ifs <;> omega
  rw [dropThinkingMessages]
  conv_rhs => rw [← List.zipIdx_map_fst 0 (d :: post),← List.filterMap_eq_map]
  refine List.filterMap_congr fun e _ => ?_
  have hle : findLastUserIndex (d :: post) ≤ (e.2 : Int) := by omega
  rw [decide_eq_true hle,Bool.or_true]
  rfl

def developing : Message Unit where
  role := .developer
  content := .text ['d']

end Context

end SglangLite.Chat
