import Mathlib.Data.List.TakeWhile
import SglangLite.Hybrid.Transformer

set_option autoImplicit false

namespace SglangLite.Hybrid.Generate

open Strides Causal

/-- What `generate` uses of a model: `forward` gives the logits of the last token
of each row of a batch. -/
structure Model (σ L : Type) where
  maxSeqLen : Nat
  forward : Nat → List (List Nat) → σ → Option (σ × List L)

/-- A row of the batch. A token that is not there yet, -1 in the source, is
`none`. -/
structure Row where
  tokens : List (Option Nat)
  promptMask : List Bool
  finished : Bool

def Row.advance (eosId curPos predicted : Nat) (r : Row) : Row :=
  let inPrompt := r.promptMask.getD curPos false
  let nextToken := if inPrompt then r.tokens.getD curPos none else some predicted
  { r with
    tokens := r.tokens.set curPos nextToken
    finished := r.finished || (!inPrompt && decide (nextToken = some eosId)) }

section Loop

variable {σ L : Type} (model : Model σ L) (predict : Nat → Nat → L → Nat) (eosId : Nat)

/-- The loop of `generate` over the positions that are left. `predict` is `sample`
or `argmax` at a position, for a row of the batch. -/
def loop : Nat → Nat → Nat → List Row → σ → Option (List Row)
  | 0, _, _, rows, _ => some rows
  | n+1, prevPos, curPos, rows, s => do
    let ids ← rows.mapM fun r => (slice r.tokens prevPos (curPos-prevPos)).mapM id
    let (s,logits) ← model.forward prevPos ids s
    let rows := List.zipWith (fun r nextToken => r.advance eosId curPos nextToken) rows (logits.mapIdx (predict curPos))
    if rows.all Row.finished then some rows else loop n curPos (curPos+1) rows s

/-- What a row has after its prompt, up to `eos_id`, which ends it. -/
def completion (maxNewTokens : Nat) (prompt : List Nat) (r : Row) : List (Option Nat) :=
  let toks := slice r.tokens prompt.length maxNewTokens
  let toks := if some eosId ∈ toks then toks.take (toks.idxOf (some eosId)) else toks
  toks ++ [some eosId]

def firstRow (totalLen : Nat) (prompt : List Nat) : Row :=
  let tokens := prompt.map some ++ List.replicate (totalLen-prompt.length) none
  ⟨tokens,tokens.map Option.isSome,false⟩

def generate (prompts : List (List Nat)) (maxNewTokens : Nat) (s : σ) : Option (List (List (Option Nat))) := do
  let lens := prompts.map List.length
  let longest ← lens.max?
  let shortest ← lens.min?
  if model.maxSeqLen < longest then none
  let totalLen := min model.maxSeqLen (maxNewTokens+longest)
  let rows ← loop model predict eosId (totalLen-shortest) 0 shortest (prompts.map (firstRow totalLen)) s
  return List.zipWith (completion eosId maxNewTokens) prompts rows

end Loop

section Lists

variable {A B C D : Type}

theorem takeWhile_append_of_mem {p : A → Bool} {xs : List A} (ys : List A) {a : A} (ha : a ∈ xs) (hp : p a = false) :
    (xs ++ ys).takeWhile p = xs.takeWhile p := by
  rw [List.takeWhile_append,if_neg]
  intro hlen
  have hall := (List.takeWhile_prefix p).eq_of_length hlen
  rw [List.takeWhile_eq_self_iff.mp hall a ha] at hp
  cases hp

theorem take_idxOf [BEq A] [LawfulBEq A] (a : A) (l : List A) [Decidable (a ∈ l)] :
    (if a ∈ l then l.take (l.idxOf a) else l) = l.takeWhile fun b => !(b == a) := by
  have htake : l.takeWhile (fun b => !(b == a)) = l.take (l.idxOf a) := by
    rw [List.takeWhile_eq_take_findIdx_not,List.idxOf]
    simp only [Bool.not_not]
  rw [htake]
  split_ifs with h
  · rfl
  · rw [List.idxOf_eq_length h,List.take_length]

theorem mapM_mapIdx {f : B → Option C} {g : Nat → A → B} {h : Nat → A → C} {l : List A}
    (hf : ∀ i a, l[i]? = some a → f (g i a) = some (h i a)) : (l.mapIdx g).mapM f = some (l.mapIdx h) := by
  induction l generalizing g h with
  | nil => rfl
  | cons a l ih =>
    rw [List.mapIdx_cons,List.mapM_cons,hf 0 a rfl,ih fun i b hb => hf (i+1) b hb,List.mapIdx_cons]
    rfl

theorem zipWith_mapIdx (f : B → C → D) (g : Nat → A → B) (h : Nat → A → C) (l : List A) :
    List.zipWith f (l.mapIdx g) (l.mapIdx h) = l.mapIdx fun i a => f (g i a) (h i a) := by
  refine List.ext_getElem? fun i => ?_
  rw [List.getElem?_zipWith,List.getElem?_mapIdx,List.getElem?_mapIdx,List.getElem?_mapIdx]
  cases l[i]? <;> rfl

theorem mapIdx_congr {f g : Nat → A → B} {l : List A} (h : ∀ i a, l[i]? = some a → f i a = g i a) :
    l.mapIdx f = l.mapIdx g := by
  rw [List.mapIdx_eq_mapIdx_iff]
  exact fun i hi => h i l[i] (List.getElem?_eq_getElem hi)

end Lists

section Filled

def filled (eosId total curPos : Nat) (prompt text : List Nat) : Row where
  tokens := (List.range total).map fun j => if j < max curPos prompt.length then text[j]? else none
  promptMask := (List.range total).map fun j => decide (j < prompt.length)
  finished := decide (eosId ∈ (text.take curPos).drop prompt.length)

variable {eosId total cur : Nat} {prompt text : List Nat}

theorem firstRow_eq (hpre : prompt <+: text) (hlen : text.length = total) (hcur : cur ≤ prompt.length) :
    firstRow total prompt = filled eosId total cur prompt text := by
  have hdrop : (text.take cur).drop prompt.length = [] := List.drop_eq_nil_of_le (by rw [List.length_take]; omega)
  have hle : prompt.length ≤ total := hlen ▸ hpre.length_le
  have htokens : prompt.map some ++ List.replicate (total-prompt.length) none =
      (List.range total).map fun j => if j < prompt.length then text[j]? else none := by
    have hlens : (prompt.map some ++ List.replicate (total-prompt.length) none).length = total := by
      rw [List.length_append,List.length_map,List.length_replicate]
      omega
    refine List.ext_getElem (by rw [hlens,List.length_map,List.length_range]) fun j h1 h2 => ?_
    rw [List.getElem_map,List.getElem_range]
    split_ifs with hj
    · rw [List.getElem_append_left (by rwa [List.length_map]),List.getElem_map,hpre.getElem hj]
      exact (List.getElem?_eq_getElem _).symm
    · rw [List.getElem_append_right (by rw [List.length_map]; omega),List.getElem_replicate]
  have hmask : ((List.range total).map fun j => if j < prompt.length then text[j]? else none).map Option.isSome =
      (List.range total).map fun j => decide (j < prompt.length) := by
    rw [List.map_map]
    refine List.map_congr_left fun j hj => ?_
    rw [Function.comp_apply]
    split_ifs with hp
    · rw [List.getElem?_eq_getElem (by omega),Option.isSome_some,decide_eq_true hp]
    · rw [Option.isSome_none,decide_eq_false hp]
  rw [firstRow,filled,Nat.max_eq_right hcur,hdrop,htokens,hmask]
  rfl

theorem filled_input (hlen : text.length = total) {prev : Nat} (hcur : cur ≤ total) :
    (slice (filled eosId total cur prompt text).tokens prev (cur-prev)).mapM id =
      some (slice text prev (cur-prev)) := by
  have hcut : slice (filled eosId total cur prompt text).tokens prev (cur-prev) =
      (slice text prev (cur-prev)).map some := by
    refine List.ext_getElem? fun j => ?_
    rw [filled,getElem?_slice,List.getElem?_map,List.getElem?_map,getElem?_slice]
    split_ifs with hj
    · rw [List.getElem?_range (by omega),Option.map_some,if_pos (by omega),List.getElem?_eq_getElem (by omega)]
      rfl
    · rfl
  have hall : ∀ xs : List Nat, (xs.map some).mapM id = some xs := by
    intro xs
    rw [List.mapM_map]
    exact List.mapM_pure.trans (congrArg some (List.map_id xs))
  rw [hcut,hall]

theorem advance_filled (hlen : text.length = total) (hcur : cur < total) {predicted : Nat}
    (hpred : prompt.length ≤ cur → text[cur]? = some predicted) :
    (filled eosId total cur prompt text).advance eosId cur predicted = filled eosId total (cur+1) prompt text := by
  have hmask : (filled eosId total cur prompt text).promptMask.getD cur false = decide (cur < prompt.length) := by
    rw [filled,List.getD_eq_getElem _ _ (by rwa [List.length_map,List.length_range]),List.getElem_map,
      List.getElem_range]
  have hold : (filled eosId total cur prompt text).tokens.getD cur none =
      if cur < max cur prompt.length then text[cur]? else none := by
    rw [filled,List.getD_eq_getElem _ _ (by rwa [List.length_map,List.length_range]),List.getElem_map,
      List.getElem_range]
  have hnext : (if decide (cur < prompt.length) = true then if cur < max cur prompt.length then text[cur]? else none
      else some predicted) = text[cur]? := by
    by_cases hp : cur < prompt.length
    · rw [if_pos (decide_eq_true hp),if_pos (by omega)]
    · rw [if_neg (by simpa using hp),hpred (by omega)]
  have htokens : (filled eosId total cur prompt text).tokens.set cur text[cur]? =
      (filled eosId total (cur+1) prompt text).tokens := by
    refine List.ext_getElem? fun j => ?_
    rw [filled,filled,List.getElem?_set,List.length_map,List.length_range,List.getElem?_map,List.getElem?_map]
    rcases Nat.lt_or_ge j total with hj | hj
    · rw [List.getElem?_range hj,Option.map_some,Option.map_some]
      split_ifs <;> first | rfl | omega | (subst_vars; rfl)
    · have hnone : (List.range total)[j]? = none := List.getElem?_eq_none (by rwa [List.length_range])
      rw [hnone,if_neg (by omega)]
      rfl
  have hfinished : ((filled eosId total cur prompt text).finished ||
      (!decide (cur < prompt.length) && decide (text[cur]? = some eosId))) =
        (filled eosId total (cur+1) prompt text).finished := by
    simp only [filled]
    rw [List.getElem?_eq_getElem (by omega),Bool.eq_iff_iff]
    by_cases hp : cur < prompt.length
    · have h1 : (text.take cur).drop prompt.length = [] := List.drop_eq_nil_of_le (by rw [List.length_take]; omega)
      have h2 : (text.take (cur+1)).drop prompt.length = [] := List.drop_eq_nil_of_le (by rw [List.length_take]; omega)
      simp [hp,h1,h2]
    · have hsplit : (text.take (cur+1)).drop prompt.length = (text.take cur).drop prompt.length ++ [text[cur]] := by
        rw [List.take_succ_eq_append_getElem (by omega),List.drop_append_of_le_length (by rw [List.length_take]; omega)]
      have hsame : text[cur] = eosId ↔ eosId = text[cur] := eq_comm
      rw [hsplit]
      simp [hp,hsame]
  rw [Row.advance]
  simp only [hmask,hold,hnext,htokens,hfinished]
  rfl

theorem completion_filled (hlen : text.length = total) (hprompt : prompt.length ≤ total) {stop : Nat}
    (hstop : stop = total ∨ stop ≤ total ∧ eosId ∈ (text.take stop).drop prompt.length) (maxNewTokens : Nat) :
    completion eosId maxNewTokens prompt (filled eosId total stop prompt text) =
      (((text.drop prompt.length).take maxNewTokens).takeWhile (· ≠ eosId) ++ [eosId]).map some := by
  obtain ⟨tokens,htokens⟩ : ∃ tokens, (filled eosId total stop prompt text).tokens = tokens := ⟨_,rfl⟩
  have hknown : tokens.take (max stop prompt.length) = (text.take (max stop prompt.length)).map some := by
    refine List.ext_getElem? fun j => ?_
    rw [← htokens,filled,List.getElem?_take,List.getElem?_map,List.getElem?_map,List.getElem?_take]
    split_ifs with hj
    · rw [List.getElem?_range (by omega),Option.map_some,if_pos hj,List.getElem?_eq_getElem (by omega)]
      rfl
    · rfl
  have hsame : (tokens.drop prompt.length).takeWhile (fun t => !(t == some eosId)) =
      ((text.drop prompt.length).map some).takeWhile (fun t => !(t == some eosId)) := by
    rcases hstop with rfl | ⟨hle,hmem⟩
    · have hall : tokens.length = stop := by rw [← htokens,filled,List.length_map,List.length_range]
      rw [Nat.max_eq_left hprompt,List.take_of_length_le (Nat.le_of_eq hall),
        List.take_of_length_le (Nat.le_of_eq hlen)] at hknown
      rw [hknown,List.map_drop]
    · have hpos : prompt.length ≤ stop := by
        by_contra hlt
        rw [List.drop_eq_nil_of_le (by rw [List.length_take]; omega)] at hmem
        cases hmem
      rw [Nat.max_eq_left hpos] at hknown
      have hsplit : ∀ xs : List (Option Nat), xs.take stop = (text.take stop).map some →
          xs.drop prompt.length = ((text.take stop).drop prompt.length).map some ++ xs.drop stop := by
        intro xs hxs
        conv_lhs => rw [← List.take_append_drop stop xs,hxs]
        rw [List.drop_append_of_le_length (by rw [List.length_map,List.length_take]; omega),List.map_drop]
      have hmem' := List.mem_map_of_mem (f := some) hmem
      rw [hsplit tokens hknown,List.map_drop (l := text),hsplit (text.map some) List.map_take.symm,
        takeWhile_append_of_mem _ hmem' (by simp),takeWhile_append_of_mem _ hmem' (by simp)]
  have hstops : (fun t => !(t == some eosId)) ∘ some = fun t : Nat => decide (t ≠ eosId) := by
    funext t
    rw [Function.comp_apply,Bool.eq_iff_iff]
    simp
  rw [completion,htokens]
  simp only [take_idxOf]
  rw [slice,← List.take_takeWhile,hsame,List.takeWhile_map,hstops,← List.map_take,List.take_takeWhile,List.map_append]
  rfl

end Filled

section Rows

variable {σ L B ρ : Type}

structure Rowwise (model : Model σ L) (Ok : σ → Prop) (row : σ → Nat → ρ) (pass : Pass Nat B ρ) (read : Option B → L)
    (vocabSize maxBatchSize : Nat) : Prop where
  forward : ∀ (start k : Nat) (ids : List (List Nat)) (s : σ), Ok s → ids.length ≤ maxBatchSize →
    (∀ r ∈ ids, r.length = k+1) → (∀ r ∈ ids, ∀ t ∈ r, t < vocabSize) →
      ∃ s', model.forward start ids s =
          some (s',ids.mapIdx fun slot r => read (pass start r (row s slot)).2.getLast?) ∧
        Ok s' ∧ ∀ slot r, ids[slot]? = some r → row s' slot = (pass start r (row s slot)).1

variable {model : Model σ L} {Ok : σ → Prop} {row : σ → Nat → ρ} {pass : Pass Nat B ρ} {read : Option B → L}
  {vocabSize maxBatchSize : Nat} {f : List Nat → Nat → B} {Fresh : ρ → Prop} {Holds : List Nat → ρ → Prop}
  {predict : Nat → Nat → L → Nat} {eosId total : Nat} {prompts : List (List Nat)}

def answer (f : List Nat → Nat → B) (read : Option B → L) (predict : Nat → L → Nat) (eosId count : Nat)
    (prompt : List Nat) : List Nat :=
  (continuation (fun text => predict text.length (read (outputs f text).getLast?)) count prompt).takeWhile
    (· ≠ eosId) ++ [eosId]

/-- The texts of a batch: each is `total` long, and after its prompt every token is
the one predicted from those before it. -/
structure Texts (f : List Nat → Nat → B) (read : Option B → L) (predict : Nat → Nat → L → Nat)
    (vocabSize total : Nat) (prompts : List (List Nat)) (text : Nat → List Nat → List Nat) : Prop where
  length : ∀ {i p}, prompts[i]? = some p → (text i p).length = total
  tokens : ∀ {i p}, prompts[i]? = some p → ∀ t ∈ text i p, t < vocabSize
  predicted : ∀ {i p cur}, prompts[i]? = some p → p.length ≤ cur → cur < total →
    (text i p)[cur]? = some (predict cur i (read (outputs f ((text i p).take cur)).getLast?))

/-- The loop fills in the texts, up to a position where all of them are finished. -/
theorem loop_texts (eosId : Nat) (hmodel : Rowwise model Ok row pass read vocabSize maxBatchSize)
    (hpass : Computes pass f Fresh Holds) (hbatch : prompts.length ≤ maxBatchSize) {text : Nat → List Nat → List Nat}
    (ht : Texts f read predict vocabSize total prompts text) {n prev cur : Nat} {s : σ} (hn : cur+n = total)
    (hprev : prev < cur) (hone : prev = 0 ∨ cur = prev+1) (hok : Ok s)
    (hready : ∀ i p, prompts[i]? = some p → Computes.Ready Fresh Holds (text i p) prev (row s i)) :
    ∃ stop, (stop = total ∨
        stop ≤ total ∧ ∀ i p, prompts[i]? = some p → eosId ∈ ((text i p).take stop).drop p.length) ∧
      loop model predict eosId n prev cur (prompts.mapIdx fun i p => filled eosId total cur p (text i p)) s =
        some (prompts.mapIdx fun i p => filled eosId total stop p (text i p)) := by
  induction n generalizing prev cur s with
  | zero => exact ⟨cur,.inl hn,rfl⟩
  | succ n ih =>
    have hids := mapM_mapIdx (l := prompts)
      (f := fun r : Row => (slice r.tokens prev (cur-prev)).mapM id)
      (g := fun i p => filled eosId total cur p (text i p)) (h := fun i p => slice (text i p) prev (cur-prev))
      fun i p hp => filled_input (ht.length hp) (by omega)
    have hlen : ∀ i p, prompts[i]? = some p → (slice (text i p) prev (cur-prev)).length = cur-prev-1+1 := by
      intro i p hp
      rw [slice,List.length_take,List.length_drop,ht.length hp]
      omega
    obtain ⟨s',hrun,hok',hrows⟩ := hmodel.forward prev (cur-prev-1)
      (prompts.mapIdx fun i p => slice (text i p) prev (cur-prev)) s hok (by rwa [List.length_mapIdx])
      (fun r hr => by
        obtain ⟨i,hi,rfl⟩ := List.mem_mapIdx.mp hr
        exact hlen i _ (List.getElem?_eq_getElem hi))
      (fun r hr t hmem => by
        obtain ⟨i,hi,rfl⟩ := List.mem_mapIdx.mp hr
        exact ht.tokens (List.getElem?_eq_getElem hi) t (List.mem_of_mem_drop (List.mem_of_mem_take hmem)))
    have hstep : ∀ i p, prompts[i]? = some p → Computes.Ready Fresh Holds (text i p) cur (row s' i) ∧
        (pass prev (slice (text i p) prev (cur-prev)) (row s i)).2.getLast? =
          (outputs f ((text i p).take cur)).getLast? := by
      intro i p hp
      rw [hrows i _ (by rw [List.getElem?_mapIdx,hp]; rfl)]
      exact hpass.advance hprev (by rw [ht.length hp]; omega) hone (hready i p hp)
    have hadvance : List.zipWith (fun r nextToken => Row.advance eosId cur nextToken r)
        (prompts.mapIdx fun i p => filled eosId total cur p (text i p))
        (((prompts.mapIdx fun i p => slice (text i p) prev (cur-prev)).mapIdx fun slot r =>
          read (pass prev r (row s slot)).2.getLast?).mapIdx (predict cur)) =
            prompts.mapIdx fun i p => filled eosId total (cur+1) p (text i p) := by
      rw [List.mapIdx_mapIdx,List.mapIdx_mapIdx,zipWith_mapIdx]
      refine mapIdx_congr fun i p hp => advance_filled (ht.length hp) (by omega) fun hle => ?_
      rw [ht.predicted hp hle (by omega)]
      exact congrArg (fun o => some (predict cur i (read o))) (hstep i p hp).2.symm
    rw [loop,hids,Option.bind_eq_bind,Option.bind_some,hrun,Option.bind_eq_bind,Option.bind_some]
    simp only [hadvance]
    split_ifs with hall
    · refine ⟨cur+1,.inr ⟨by omega,fun i p hp => ?_⟩,rfl⟩
      have hmem : filled eosId total (cur+1) p (text i p) ∈
          prompts.mapIdx fun i p => filled eosId total (cur+1) p (text i p) :=
        List.mem_of_getElem? (i := i) (by rw [List.getElem?_mapIdx,hp]; rfl)
      exact of_decide_eq_true (List.all_eq_true.mp hall _ hmem)
    · exact ih (by omega) (by omega) (.inr rfl) hok' fun i p hp => (hstep i p hp).1

theorem texts_continuation (hpredict : ∀ cur i text, predict cur i (read (outputs f text).getLast?) < vocabSize)
    (hprompts : ∀ p ∈ prompts, p.length ≤ total ∧ ∀ t ∈ p, t < vocabSize) :
    Texts f read predict vocabSize total prompts fun i p => p ++
      continuation (fun text => predict text.length i (read (outputs f text).getLast?)) (total-p.length) p where
  length hp := by
    have := (hprompts _ (List.mem_of_getElem? hp)).1
    rw [List.length_append,length_continuation]
    omega
  tokens hp t ht := by
    rcases List.mem_append.mp ht with ht | ht
    · exact (hprompts _ (List.mem_of_getElem? hp)).2 t ht
    · obtain ⟨text,rfl⟩ := mem_continuation ht
      exact hpredict ..
  predicted {i p cur} hp hle hlt := by
    rw [List.getElem?_append_right hle,getElem?_continuation (by omega),List.take_append,List.take_of_length_le hle,
      take_continuation (by omega),List.length_append,length_continuation,Nat.add_sub_cancel' hle]

theorem generate_texts (hmodel : Rowwise model Ok row pass read vocabSize maxBatchSize)
    (hpass : Computes pass f Fresh Holds)
    (hpredict : ∀ cur i text, predict cur i (read (outputs f text).getLast?) < vocabSize)
    (hne : prompts ≠ []) (hbatch : prompts.length ≤ maxBatchSize)
    (hprompts : ∀ p ∈ prompts, p ≠ [] ∧ p.length ≤ model.maxSeqLen ∧ ∀ t ∈ p, t < vocabSize) (maxNewTokens : Nat)
    {s : σ} (hok : Ok s) (hfresh : ∀ i, Fresh (row s i)) :
    generate model predict eosId prompts maxNewTokens s = some (prompts.mapIdx fun i p =>
      (answer f read (fun n l => predict n i l) eosId (min maxNewTokens (model.maxSeqLen-p.length)) p).map some) := by
  obtain ⟨longest,hlongest⟩ : ∃ n, (prompts.map List.length).max? = some n :=
    Option.ne_none_iff_exists'.mp fun h => hne (by simpa using h)
  obtain ⟨shortest,hshortest⟩ : ∃ n, (prompts.map List.length).min? = some n :=
    Option.ne_none_iff_exists'.mp fun h => hne (by simpa using h)
  obtain ⟨hmax,hlonger⟩ := List.max?_eq_some_iff.mp hlongest
  obtain ⟨hmin,hshorter⟩ := List.min?_eq_some_iff.mp hshortest
  obtain ⟨pmax,hpmax,rfl⟩ := List.mem_map.mp hmax
  obtain ⟨pmin,hpmin,rfl⟩ := List.mem_map.mp hmin
  have hseq := (hprompts pmax hpmax).2.1
  have hpos := List.length_pos_of_ne_nil (hprompts pmin hpmin).1
  obtain ⟨total,htotal⟩ : ∃ total, min model.maxSeqLen (maxNewTokens+pmax.length) = total := ⟨_,rfl⟩
  have hle : ∀ p ∈ prompts, pmin.length ≤ p.length ∧ p.length ≤ pmax.length := fun p hp =>
    ⟨hshorter _ (List.mem_map_of_mem hp),hlonger _ (List.mem_map_of_mem hp)⟩
  have hfit : ∀ p ∈ prompts, p.length ≤ total := fun p hp => by
    have := hle p hp
    omega
  have ht := texts_continuation hpredict fun p hp => ⟨hfit p hp,(hprompts p hp).2.2⟩
  obtain ⟨stop,hstop,hloop⟩ := loop_texts eosId hmodel hpass hbatch ht
    (Nat.add_sub_cancel' (hfit pmin hpmin)) hpos (.inl rfl) hok fun i p _ => hfresh i
  have hrows : prompts.map (firstRow total) = prompts.mapIdx fun i p => filled eosId total pmin.length p (p ++
      continuation (fun text => predict text.length i (read (outputs f text).getLast?)) (total-p.length) p) := by
    refine List.ext_getElem? fun i => ?_
    rw [List.getElem?_map,List.getElem?_mapIdx]
    cases hp : prompts[i]? with
    | none => rfl
    | some p =>
      exact congrArg some (firstRow_eq (List.prefix_append ..) (ht.length hp) (hle p (List.mem_of_getElem? hp)).1)
  rw [← hrows] at hloop
  rw [generate,hlongest,hshortest]
  simp only [Option.bind_eq_bind,Option.bind_some]
  rw [if_neg (by omega),htotal,hloop]
  refine congrArg some (List.ext_getElem? fun i => ?_)
  rw [List.getElem?_zipWith,List.getElem?_mapIdx,List.getElem?_mapIdx]
  cases hp : prompts[i]? with
  | none => rfl
  | some p =>
    have hmem := List.mem_of_getElem? hp
    have hlong := (hle p hmem).2
    have hcut : ∀ g : List Nat → Nat, (continuation g (total-p.length) p).take maxNewTokens =
        continuation g (min maxNewTokens (model.maxSeqLen-p.length)) p := fun g => by
      rw [List.take_eq_take_min,length_continuation,take_continuation (Nat.min_le_right ..)]
      refine congrArg (fun n => continuation g n p) ?_
      omega
    refine congrArg some ((completion_filled (ht.length hp) (hfit p hmem) ?_ maxNewTokens).trans ?_)
    · exact hstop.imp id fun h => ⟨h.1,h.2 i p hp⟩
    · rw [List.drop_left,hcut]
      rfl

end Rows

section Ranks

open Sharding Sharded

variable {X K V W Y : Type} [Field K] [LinearOrder K] [AddCommMonoid Y]

/-- The index of the largest element, of equal ones the first. -/
def argmax (l : List K) : Nat := (topk 1 l).headD 0

/-- `sample`; `noise` is what `exponential_` draws for a row. -/
def sample (e : K → K) (temperature : K) (noise : Nat → K) (logits : List K) : Nat :=
  let logits := logits.map (· /max temperature (1/100000))
  let probs := logits.map fun x => e x/(logits.map e).sum
  argmax (probs.mapIdx fun i p => p/noise i)

def predict (e : K → K) (temperature : K) (noise : Nat → Nat → Nat → K) (curPos row : Nat) (logits : List K) : Nat :=
  if 0 < temperature then sample e temperature (noise curPos row) logits else argmax logits

variable (c : Scalars K) (args : ModelArgs) (e : K → K) (ws : Nat) (m : Weights X K V W Y)

def model : Model (List (Nat → LayerRow K)) (List K) := ⟨args.maxSeqLen,m.forward c args e ws⟩

def fresh : List (Nat → LayerRow K) :=
  (freshModel c args (m.layers.map LayerWeights.ratio)).map fun st slot => st.row slot

def recompute (text : List Nat) : List K :=
  ((m.forward c args e 1 0 [text] (fresh c args m)).bind fun r => r.2.head?).getD []

variable {c args e ws m}

omit [Field K] in
theorem argmax_lt {l : List K} {n : Nat} (hlen : l.length ≤ n) (hn : 0 < n) : argmax l < n := by
  rw [argmax]
  cases hl : topk 1 l with
  | nil => exact hn
  | cons t ts => exact Nat.lt_of_lt_of_le (topk_lt (by rw [hl]; exact List.mem_cons_self)) hlen

theorem predict_lt {temperature : K} {noise : Nat → Nat → Nat → K} {logits : List K} {n : Nat}
    (hlen : logits.length ≤ n) (hn : 0 < n) (cur i : Nat) : predict e temperature noise cur i logits < n := by
  rw [predict]
  split_ifs
  · exact argmax_lt (by rwa [List.length_mapIdx,List.length_map,List.length_map]) hn
  · exact argmax_lt hlen hn

theorem rowwise (h : m.Fits ws) : Rowwise (model c args e ws m) (fun caches => caches.length = m.layers.length)
    (fun caches slot => caches.map (· slot))
    (fun start ids rows => netPass args c (m.layers.map (rankBlock e 1)) start (ids.map m.token) rows)
    (fun x => (x.map fun x => linear (m.norm x) m.head).getD []) m.vocabSize args.maxBatchSize where
  forward start k ids s hok hbatch hlen hids := by
    obtain ⟨caches',hrun,hrows⟩ := forward_eq (c := c) (e := e) h start hlen hids hbatch hok
    refine ⟨caches',hrun,?_,fun slot r hr => ?_⟩
    · have hrow := hrows ids.length
      rw [List.getElem?_eq_none (Nat.le_refl _)] at hrow
      have := congrArg List.length hrow
      rw [List.length_map] at this
      rw [this,Option.map_none,Option.getD_none,List.length_map,hok]
    · rw [hrows,hr]
      rfl

theorem fresh_rows (i : Nat) :
    FreshRows args c (m.layers.map (rankBlock e 1)) ((fresh c args m).map (· i)) := by
  have hratios : m.layers.map LayerWeights.ratio = (m.layers.map (rankBlock e 1)).map Block.ratio := by
    rw [List.map_map]
    rfl
  rw [fresh,hratios,List.map_map]
  exact freshRows_slot (m.layers.map (rankBlock e 1)) i

omit [Field K] [LinearOrder K] [AddCommMonoid Y] in
theorem length_fresh : (fresh c args m).length = m.layers.length := by
  rw [fresh,freshModel,List.length_map,List.length_map,List.length_map]

theorem recompute_eq (h : m.Fits 1) {f : List Nat → Nat → X} {Holds : List Nat → List (LayerRow K) → Prop}
    (hpass : Computes (fun start ids rows => netPass args c (m.layers.map (rankBlock e 1)) start (ids.map m.token) rows)
      f (FreshRows args c (m.layers.map (rankBlock e 1))) Holds) (hbatch : 0 < args.maxBatchSize) {text : List Nat}
    (hne : text ≠ []) (htext : ∀ t ∈ text, t < m.vocabSize) :
    recompute c args e m text = m.lastLogits (outputs f text) := by
  obtain ⟨k,hk⟩ : ∃ k, text.length = k+1 := Nat.exists_eq_add_one.mpr (List.length_pos_of_ne_nil hne)
  obtain ⟨caches',hrun,_⟩ := @forward_eq X K V W Y _ _ _ c args e 1 m h 0 [text] k
    (fun r hr => by rw [List.mem_singleton.mp hr]; exact hk) (fun r hr => by rw [List.mem_singleton.mp hr]; exact htext)
    hbatch _ length_fresh
  have hout := (hpass.first hne (fresh_rows 0)).2
  rw [recompute,hrun]
  exact congrArg m.lastLogits hout

end Ranks

end SglangLite.Hybrid.Generate
