import SglangLite.Sched.Phases
import SglangLite.Paged.Phases
import SglangLite.Hybrid.Calls
import SglangLite.Hybrid.Plan

set_option autoImplicit false

namespace SglangLite.Hybrid
open Kv Sched Text

def Op.seqs : Op → List SeqId
  | .restore i _ => [i]
  | .stage i _ _ => [i]
  | .forward _ ins => ins.map Prod.fst
  | .sample i => [i]
  | .prefilled i _ => [i]
  | .decoded i => [i]
  | .save i _ => [i]
  | .append i _ => [i]
  | .burst i _ => [i]
  | .greedy i _ => [i]
  | .single i _ => [i]
  | .advance i => [i]
  | .output i => [i]

def Op.feeds (i : SeqId) : Op → Nat
  | .forward _ ins => ((ins.filter fun m => m.1 = i).map fun m => m.2.length).sum
  | _ => 0

def Op.records (i : SeqId) : Op → Nat
  | .prefilled j n => if j = i then n else 0
  | .decoded j => if j = i then 1 else 0
  | .advance j => if j = i then 1 else 0
  | _ => 0

theorem Op.feeds_of_notMem {i : SeqId} {op : Op} (h : i ∉ op.seqs) : op.feeds i = 0 := by
  cases op with
  | forward start ins =>
    have hnil : ins.filter (fun m => m.1 = i) = [] := by
      rw [List.filter_eq_nil_iff]
      intro m hm he
      exact h (List.mem_map.mpr ⟨m,hm,by simpa using he⟩)
    simp [feeds,hnil]
  | _ => rfl

theorem Op.records_of_notMem {i : SeqId} {op : Op} (h : i ∉ op.seqs) : op.records i = 0 := by
  have hne : ∀ {j : SeqId}, i ∉ [j] → j ≠ i := fun hj he => hj (by simp [he])
  cases op with
  | prefilled j n => exact if_neg (hne h)
  | decoded j => exact if_neg (hne h)
  | advance j => exact if_neg (hne h)
  | _ => rfl

def fed (i : SeqId) (ops : List Op) : Nat := (ops.map (Op.feeds i)).sum

def recorded (i : SeqId) (ops : List Op) : Nat := (ops.map (Op.records i)).sum

@[simp] theorem fed_nil (i : SeqId) : fed i [] = 0 := rfl

@[simp] theorem recorded_nil (i : SeqId) : recorded i [] = 0 := rfl

@[simp] theorem fed_cons (i : SeqId) (op : Op) (ops : List Op) : fed i (op :: ops) = op.feeds i+fed i ops := rfl

@[simp] theorem recorded_cons (i : SeqId) (op : Op) (ops : List Op) :
    recorded i (op :: ops) = op.records i+recorded i ops := rfl

@[simp] theorem fed_append (i : SeqId) (xs ys : List Op) : fed i (xs ++ ys) = fed i xs+fed i ys := by
  simp [fed]

@[simp] theorem recorded_append (i : SeqId) (xs ys : List Op) :
    recorded i (xs ++ ys) = recorded i xs+recorded i ys := by
  simp [recorded]

theorem fed_of_notMem {i : SeqId} {ops : List Op} (h : ∀ op ∈ ops, i ∉ op.seqs) : fed i ops = 0 := by
  induction ops with
  | nil => rfl
  | cons op ops ih =>
    rw [fed_cons,Op.feeds_of_notMem (h op (by simp)),ih fun op hop => h op (List.mem_cons_of_mem _ hop)]

theorem recorded_of_notMem {i : SeqId} {ops : List Op} (h : ∀ op ∈ ops, i ∉ op.seqs) :
    recorded i ops = 0 := by
  induction ops with
  | nil => rfl
  | cons op ops ih =>
    rw [recorded_cons,Op.records_of_notMem (h op (by simp)),
      ih fun op hop => h op (List.mem_cons_of_mem _ hop)]

def Own (tokens : List Token) (start : Nat) (ts : List Token) : Prop :=
  start+ts.length ≤ tokens.length → ts <+: tokens.drop start

/-- Where the calls made so far have left the sequences: how many tokens the row
has seen, the `cached_len`, whether the hit is restored, whether the pages are
staged and whether there are logits. -/
structure Ctx where
  pos : SeqId → Nat
  len : SeqId → Nat
  restored : SeqId → Prop
  staged : SeqId → Prop
  logits : SeqId → Prop

namespace Ctx

def after (c : Ctx) (op : Op) : Ctx where
  pos := fun i => c.pos i+op.feeds i
  len := fun i => c.len i+op.records i
  restored := match op with
    | .restore i _ => fun j => j = i ∨ c.restored j
    | _ => c.restored
  staged := match op with
    | .restore i _ => fun j => j ≠ i ∧ c.staged j
    | .stage i _ true => fun j => j = i ∨ c.staged j
    | .save i _ => fun j => j ≠ i ∧ c.staged j
    | _ => c.staged
  logits := match op with
    | .prefilled i _ => fun j => j = i ∨ c.logits j
    | _ => c.logits

def run (c : Ctx) (ops : List Op) : Ctx := ops.foldl after c

@[simp] theorem run_nil (c : Ctx) : c.run [] = c := rfl

@[simp] theorem run_cons (c : Ctx) (op : Op) (ops : List Op) : c.run (op :: ops) = (c.after op).run ops := rfl

theorem pos_run (c : Ctx) (ops : List Op) (i : SeqId) : (c.run ops).pos i = c.pos i+fed i ops := by
  induction ops generalizing c with
  | nil => rfl
  | cons op ops ih =>
    rw [run_cons,ih,fed_cons,← Nat.add_assoc]
    rfl

theorem len_run (c : Ctx) (ops : List Op) (i : SeqId) : (c.run ops).len i = c.len i+recorded i ops := by
  induction ops generalizing c with
  | nil => rfl
  | cons op ops ih =>
    rw [run_cons,ih,recorded_cons,← Nat.add_assoc]
    rfl

theorem restored_run {c : Ctx} {ops : List Op} {i : SeqId} (h : c.restored i) :
    (c.run ops).restored i := by
  induction ops generalizing c with
  | nil => exact h
  | cons op ops ih =>
    refine ih ?_
    cases op with
    | restore j slot => exact .inr h
    | _ => exact h

end Ctx

def Op.Fits (tok : SeqId → List Token) (c : Ctx) : Op → Prop
  | .restore i _ => c.pos i = c.len i
  | .stage _ _ _ => True
  | .forward start ins => (ins.map Prod.fst).Nodup ∧
      ∀ m ∈ ins, c.restored m.1 ∧ start = c.pos m.1 ∧ Own (tok m.1) start m.2
  | .save i _ => c.restored i ∧ c.logits i ∧ c.pos i = c.len i
  | .append i _ => c.restored i ∧ c.staged i
  | .burst _ _ => True
  | .single _ _ => True
  | .sample i => c.restored i
  | .prefilled i _ => c.restored i
  | .decoded i => c.restored i
  | .greedy i _ => c.restored i
  | .advance i => c.restored i
  | .output i => c.restored i

def AllFit (tok : SeqId → List Token) : Ctx → List Op → Prop
  | _, [] => True
  | c, op :: ops => op.Fits tok c ∧ AllFit tok (c.after op) ops

variable {tok : SeqId → List Token} {c : Ctx}

theorem allFit_append {xs ys : List Op} : AllFit tok c (xs ++ ys) ↔ AllFit tok c xs ∧ AllFit tok (c.run xs) ys := by
  induction xs generalizing c with
  | nil => exact ⟨fun h => ⟨trivial,h⟩,fun h => h.2⟩
  | cons op xs ih =>
    rw [List.cons_append,AllFit,ih,AllFit,Ctx.run_cons,and_assoc]

def Turned (q : Sequence) : Prop := q.outputIds ≠ [] ∧ q.tokens.length ≤ q.cachedLen+1

def OpPhase (q : Sequence) : Op → Prop
  | .sample _ => q.outputIds = [] ∧ q.cachedLen = q.inputIds.length
  | .prefilled _ n => q.outputIds = [] ∧ q.cachedLen+n = q.inputIds.length
  | .decoded _ => Turned q
  | _ => False

def Op.ofBurst : Op → Bool
  | .burst _ _ => true
  | .greedy _ _ => true
  | .single _ _ => true
  | .advance _ => true
  | .output _ => true
  | _ => false

structure Part (s : Scheduler) (ids : List SeqId) (ops : List Op) : Prop where
  fits : ∀ c : Ctx, (∀ i ∈ ids, c.pos i = (s.seq i).cachedLen ∧ c.len i = (s.seq i).cachedLen) →
    AllFit (fun i => (s.seq i).tokens) c ops
  seqs : ∀ op ∈ ops, ∀ i ∈ op.seqs, i ∈ ids
  even : ∀ i, fed i ops = recorded i ops
  phase : ∀ op ∈ ops, op.ofBurst = false ∧ ∀ i, op.result = some i → OpPhase (s.seq i) op

namespace Part

variable {s : Scheduler} {ids ids' : List SeqId} {xs ys ops : List Op}

theorem nil : Part s [] [] :=
  ⟨fun _ _ => trivial,by simp,fun _ => rfl,by simp⟩

theorem perm (h : Part s ids ops) (hp : ids.Perm ids') : Part s ids' ops :=
  ⟨fun c hc => h.fits c fun i hi => hc i (hp.mem_iff.mp hi),
    fun op hop i hi => hp.mem_iff.mp (h.seqs op hop i hi),h.even,h.phase⟩

theorem append (hx : Part s ids xs) (hy : Part s ids' ys) (hd : ∀ i ∈ ids', i ∉ ids) :
    Part s (ids ++ ids') (xs ++ ys) := by
  refine ⟨fun c hc => allFit_append.mpr ⟨?_,?_⟩,fun op hop i hi => ?_,fun i => ?_,fun op hop => ?_⟩
  · exact hx.fits c fun i hi => hc i (List.mem_append_left _ hi)
  · refine hy.fits _ fun i hi => ?_
    have hno : ∀ op ∈ xs, i ∉ op.seqs := fun op hop hmem => hd i hi (hx.seqs op hop i hmem)
    rw [Ctx.pos_run,Ctx.len_run,fed_of_notMem hno,recorded_of_notMem hno]
    exact hc i (List.mem_append_right _ hi)
  · rcases List.mem_append.mp hop with hop | hop
    · exact List.mem_append_left _ (hx.seqs op hop i hi)
    · exact List.mem_append_right _ (hy.seqs op hop i hi)
  · rw [fed_append,recorded_append,hx.even,hy.even]
  · rcases List.mem_append.mp hop with hop | hop
    · exact hx.phase op hop
    · exact hy.phase op hop

theorem flatMap {α : Type} {l : List α} {m : α → List SeqId} {f : α → List Op}
    (h : ∀ g ∈ l, Part s (m g) (f g)) (hnd : (l.flatMap m).Nodup) :
    Part s (l.flatMap m) (l.flatMap f) := by
  induction l with
  | nil => exact nil
  | cons g l ih =>
    rw [List.flatMap_cons] at hnd
    obtain ⟨_,htail,hdisj⟩ := List.nodup_append.mp hnd
    rw [List.flatMap_cons,List.flatMap_cons]
    refine (h g (by simp)).append (ih (fun g' hg => h g' (List.mem_cons_of_mem _ hg)) htail) ?_
    exact fun i hi hg => hdisj i hg i hi rfl

end Part

section Feeds

theorem feeds_single (i j : SeqId) (start : Nat) (ts : List Token) :
    (Op.forward start [(i,ts)]).feeds j = if i = j then ts.length else 0 := by
  by_cases hij : i = j <;> simp [Op.feeds,hij]

theorem feeds_mem {ins : List (SeqId × List Token)} (hnd : (ins.map Prod.fst).Nodup) {i : SeqId}
    {ts : List Token} (h : (i,ts) ∈ ins) (start : Nat) : (Op.forward start ins).feeds i = ts.length := by
  induction ins with
  | nil => simp at h
  | cons m ins ih =>
    obtain ⟨hn,hnd⟩ := List.nodup_cons.mp hnd
    rcases List.mem_cons.mp h with rfl | h
    · have hnil : ins.filter (fun m => m.1 = i) = [] := by
        rw [List.filter_eq_nil_iff]
        intro m hm he
        exact hn (List.mem_map.mpr ⟨m,hm,by simpa using he⟩)
      simp [Op.feeds,hnil]
    · have hne : m.1 ≠ i := by
        rintro rfl
        exact hn (List.mem_map.mpr ⟨_,h,rfl⟩)
      have := ih hnd h
      simpa [Op.feeds,hne] using this

theorem fed_steps (i j : SeqId) (start : Nat) (ts : List Token) (k : Nat) :
    fed j ((ts.zipIdx k).flatMap fun m =>
      [Op.stage i 0 (decide (m.2 = 0)),.forward (start+m.2) [(i,[m.1])]]) = if i = j then ts.length else 0 := by
  induction ts generalizing k with
  | nil => simp
  | cons t ts ih =>
    rw [List.zipIdx_cons,List.flatMap_cons,fed_append,ih]
    simp only [fed_cons,fed_nil,feeds_single,show ∀ b, (Op.stage i 0 b).feeds j = 0 from fun _ => rfl,
      List.length_cons,List.length_nil]
    split_ifs <;> omega

theorem recorded_steps (i j : SeqId) (start : Nat) (ts : List Token) (k : Nat) :
    recorded j ((ts.zipIdx k).flatMap fun m =>
      [Op.stage i 0 (decide (m.2 = 0)),.forward (start+m.2) [(i,[m.1])]]) = 0 := by
  induction ts generalizing k with
  | nil => simp
  | cons t ts ih =>
    rw [List.zipIdx_cons,List.flatMap_cons,recorded_append,ih]
    rfl

theorem fits_steps {i : SeqId} {start : Nat} {ts : List Token} {k : Nat} (hr : c.restored i)
    (hp : c.pos i = start+k) (ht : ts <+: (tok i).drop (start+k)) :
    AllFit tok c ((ts.zipIdx k).flatMap fun m =>
      [Op.stage i 0 (decide (m.2 = 0)),.forward (start+m.2) [(i,[m.1])]]) := by
  induction ts generalizing c k with
  | nil => exact trivial
  | cons t ts ih =>
    obtain ⟨rest,hrest⟩ := ht
    rw [List.zipIdx_cons,List.flatMap_cons]
    refine ⟨trivial,⟨by simp,fun m hm => ?_⟩,ih hr ?_ ?_⟩
    · obtain rfl := List.mem_singleton.mp hm
      refine ⟨hr,hp.symm,fun _ => ?_⟩
      exact ⟨ts ++ rest,by simpa using hrest⟩
    · show c.pos i+(Op.stage i 0 _).feeds i+(Op.forward _ [(i,[t])]).feeds i = start+(k+1)
      rw [feeds_single,if_pos rfl,hp]
      rfl
    · refine ⟨rest,?_⟩
      rw [← Nat.add_assoc,← List.drop_drop,← hrest]
      rfl

end Feeds

section Parts

open Engine

variable {s : Scheduler}

theorem part_exact {i : SeqId} (hout : (s.seq i).outputIds = [])
    (hlen : (s.seq i).cachedLen = (s.seq i).inputIds.length) :
    Part s [i] [.restore i 0,.sample i] := by
  refine ⟨fun c hc => ⟨?_,.inl rfl,trivial⟩,?_,fun j => rfl,fun op hop => ?_⟩
  · obtain ⟨hp,hl⟩ := hc i (by simp)
    exact hp.trans hl.symm
  · intro op hop j hj
    simp only [List.mem_cons,List.not_mem_nil,or_false] at hop
    rcases hop with rfl | rfl <;> exact hj
  · simp only [List.mem_cons,List.not_mem_nil,or_false] at hop
    rcases hop with rfl | rfl
    · exact ⟨rfl,by simp [Op.result]⟩
    · refine ⟨rfl,fun j hj => ?_⟩
      obtain rfl := Option.some.inj hj
      exact ⟨hout,hlen⟩

def Prefills (q : Sequence) : Prop := q.cachedLen < q.inputIds.length ∧ q.outputIds = []

theorem prompt_own {q : Sequence} (h : Prefills q) :
    q.inputIds.drop q.cachedLen <+: q.tokens.drop q.cachedLen := by
  rw [Sequence.tokens,h.2,List.append_nil]

def feedRest (i : SeqId) (start : Nat) (new : List Token) : List Op :=
  if 0 < start ∧ 1 < new.length then feedSteps i start new
  else (if 0 < start then [.stage i 0 true] else []) ++ [.forward start [(i,new)]]

theorem fits_feedRest {i : SeqId} {start : Nat} {new : List Token} (hr : c.restored i) (hp : c.pos i = start)
    (hown : new <+: (tok i).drop start) : AllFit tok c (feedRest i start new) := by
  have hfwd : ∀ c : Ctx, c.restored i → c.pos i = start → AllFit tok c [.forward start [(i,new)]] := by
    intro c hr hp
    refine ⟨⟨by simp,fun m hm => ?_⟩,trivial⟩
    obtain rfl := List.mem_singleton.mp hm
    exact ⟨hr,hp.symm,fun _ => hown⟩
  unfold feedRest
  split_ifs
  · exact fits_steps hr (by rw [hp,Nat.add_zero]) hown
  · exact ⟨trivial,hfwd _ hr hp⟩
  · exact hfwd c hr hp

theorem mem_feedRest {i : SeqId} {start : Nat} {new : List Token} {op : Op} (h : op ∈ feedRest i start new) :
    op.seqs = [i] ∧ op.result = none ∧ op.ofBurst = false := by
  unfold feedRest at h
  split_ifs at h
  · obtain ⟨m,_,hm⟩ := List.mem_flatMap.mp h
    simp only [List.mem_cons,List.not_mem_nil,or_false] at hm
    rcases hm with rfl | rfl <;> exact ⟨rfl,rfl,rfl⟩
  · simp only [List.mem_append,List.mem_singleton] at h
    rcases h with rfl | rfl <;> exact ⟨rfl,rfl,rfl⟩
  · obtain rfl := List.mem_singleton.mp h
    exact ⟨rfl,rfl,rfl⟩

theorem count_feedRest (i j : SeqId) (start : Nat) (new : List Token) :
    fed j (feedRest i start new) = (if i = j then new.length else 0) ∧ recorded j (feedRest i start new) = 0 := by
  unfold feedRest
  by_cases hsteps : 0 < start ∧ 1 < new.length
  · rw [if_pos hsteps]
    exact ⟨fed_steps i j start new 0,recorded_steps i j start new 0⟩
  · rw [if_neg hsteps,fed_append,fed_cons,fed_nil,feeds_single,recorded_append]
    by_cases hpos : 0 < start <;> simp [hpos,Op.feeds,Op.records]

theorem part_prefillOne {i : SeqId} (h : Prefills (s.seq i)) : Part s [i] (prefillOne s i) := by
  have hlen : ((s.seq i).inputIds.drop (s.seq i).cachedLen).length =
      (s.seq i).inputIds.length-(s.seq i).cachedLen := List.length_drop
  have hne : (s.seq i).inputIds.drop (s.seq i).cachedLen ≠ [] := by
    intro hnil
    rw [hnil,List.length_nil] at hlen
    have := h.1
    omega
  have hown := prompt_own h
  unfold prefillOne
  simp only
  rw [if_neg hne,List.cons_append]
  generalize (s.seq i).inputIds.drop (s.seq i).cachedLen = new at hlen hown
  show Part s [i] (.restore i 0 :: (feedRest i (s.seq i).cachedLen new ++ [.prefilled i new.length,.save i 0]))
  have hcount := fun j => count_feedRest i j (s.seq i).cachedLen new
  refine ⟨fun c hc => ?_,fun op hop j hj => ?_,fun j => ?_,fun op hop => ?_⟩
  · obtain ⟨hp,hl⟩ := hc i (by simp)
    refine ⟨hp.trans hl.symm,allFit_append.mpr ⟨fits_feedRest (.inl rfl) hp hown,?_⟩⟩
    have hrun : ((c.after (.restore i 0)).run (feedRest i (s.seq i).cachedLen new)).restored i :=
      Ctx.restored_run (.inl rfl)
    refine ⟨hrun,⟨hrun,.inl rfl,?_⟩,trivial⟩
    show ((c.after (.restore i 0)).run _).pos i+0 = ((c.after (.restore i 0)).run _).len i+
      (Op.prefilled i new.length).records i
    rw [Ctx.pos_run,Ctx.len_run,(hcount i).1,(hcount i).2,if_pos rfl]
    show c.pos i+0+new.length+0 = c.len i+0+0+(if i = i then new.length else 0)
    rw [hp,hl,if_pos rfl]
    omega
  · rcases List.mem_cons.mp hop with rfl | hop
    · exact hj
    · rcases List.mem_append.mp hop with hop | hop
      · rwa [(mem_feedRest hop).1] at hj
      · simp only [List.mem_cons,List.not_mem_nil,or_false] at hop
        rcases hop with rfl | rfl <;> exact hj
  · rw [fed_cons,recorded_cons,fed_append,recorded_append,(hcount j).1,(hcount j).2]
    simp [Op.feeds,Op.records]
  · rcases List.mem_cons.mp hop with rfl | hop
    · exact ⟨rfl,by simp [Op.result]⟩
    · rcases List.mem_append.mp hop with hop | hop
      · exact ⟨(mem_feedRest hop).2.2,by simp [(mem_feedRest hop).2.1]⟩
      · simp only [List.mem_cons,List.not_mem_nil,or_false] at hop
        rcases hop with rfl | rfl
        · refine ⟨rfl,fun j hj => ?_⟩
          obtain rfl := Option.some.inj hj
          refine ⟨h.2,?_⟩
          have := h.1
          omega
        · exact ⟨rfl,by simp [Op.result]⟩

theorem fits_prepare (tok : SeqId → List Token) (c : Ctx) (stage : Bool) {ms : List (SeqId × Nat)}
    (h : ∀ m ∈ ms, c.pos m.1 = c.len m.1) :
    let ops := ms.flatMap fun m => .restore m.1 m.2 :: if stage then [.stage m.1 m.2 true] else []
    AllFit tok c ops ∧ (∀ i, fed i ops = 0 ∧ recorded i ops = 0) ∧
      (∀ i, c.restored i ∨ i ∈ ms.map Prod.fst → (c.run ops).restored i) ∧
      (stage = true → ∀ i, c.staged i ∨ i ∈ ms.map Prod.fst → (c.run ops).staged i) := by
  induction ms generalizing c with
  | nil => exact ⟨trivial,fun _ => ⟨rfl,rfl⟩,fun i hi => by simpa using hi,fun _ i hi => by simpa using hi⟩
  | cons m ms ih =>
    obtain ⟨i,b⟩ := m
    have hi := h (i,b) (by simp)
    have htail : ∀ m ∈ ms, c.pos m.1 = c.len m.1 := fun m hm => h m (List.mem_cons_of_mem _ hm)
    simp only [List.flatMap_cons,List.map_cons,List.mem_cons]
    cases stage with
    | false =>
      obtain ⟨h₁,h₂,h₃,_⟩ := ih (c.after (.restore i b)) htail
      refine ⟨⟨hi,h₁⟩,fun j => ?_,fun j hj => h₃ j ?_,by simp⟩
      · obtain ⟨hf,hr⟩ := h₂ j
        exact ⟨by simpa [Op.feeds] using hf,by simpa [Op.records] using hr⟩
      · rcases hj with hj | rfl | hj
        · exact .inl (.inr hj)
        · exact .inl (.inl rfl)
        · exact .inr hj
    | true =>
      obtain ⟨h₁,h₂,h₃,h₄⟩ := ih ((c.after (.restore i b)).after (.stage i b true)) htail
      refine ⟨⟨hi,trivial,h₁⟩,fun j => ?_,fun j hj => h₃ j ?_,fun _ j hj => h₄ rfl j ?_⟩
      · obtain ⟨hf,hr⟩ := h₂ j
        exact ⟨by simpa [Op.feeds] using hf,by simpa [Op.records] using hr⟩
      · rcases hj with hj | rfl | hj
        · exact .inl (.inr hj)
        · exact .inl (.inl rfl)
        · exact .inr hj
      · rcases hj with hj | rfl | hj
        · by_cases hij : j = i
          · exact .inl (.inl hij)
          · exact .inl (.inr ⟨hij,hj⟩)
        · exact .inl (.inl rfl)
        · exact .inr hj

theorem fits_commit {n : Nat} {ms : List (SeqId × Nat)} (hnd : (ms.map Prod.fst).Nodup)
    (hr : ∀ m ∈ ms, c.restored m.1) (hp : ∀ m ∈ ms, c.pos m.1 = c.len m.1+n) :
    AllFit tok c (ms.flatMap fun m => [.prefilled m.1 n,.save m.1 m.2]) := by
  induction ms generalizing c with
  | nil => trivial
  | cons m ms ih =>
    obtain ⟨hn,hnd⟩ := List.nodup_cons.mp hnd
    have hi := hr m (by simp)
    refine ⟨hi,⟨hi,.inl rfl,?_⟩,ih hnd (fun m' hm => hr m' (List.mem_cons_of_mem _ hm)) fun m' hm => ?_⟩
    · show c.pos m.1+0 = c.len m.1+(if m.1 = m.1 then n else 0)
      rw [if_pos rfl,Nat.add_zero]
      exact hp m (by simp)
    · have hne : m.1 ≠ m'.1 := fun he => hn (he ▸ List.mem_map_of_mem hm)
      show c.pos m'.1+0+0 = c.len m'.1+(if m.1 = m'.1 then n else 0)+0+n
      rw [if_neg hne]
      exact hp m' (List.mem_cons_of_mem _ hm)

theorem fits_decoded {ms : List (SeqId × Nat)} (hr : ∀ m ∈ ms, c.restored m.1)
    (hs : ∀ m ∈ ms, c.staged m.1) : AllFit tok c (ms.flatMap fun m => [.decoded m.1,.append m.1 m.2]) := by
  induction ms generalizing c with
  | nil => trivial
  | cons m ms ih =>
    have hi := hr m (by simp)
    exact ⟨hi,⟨hi,hs m (by simp)⟩,ih (fun m' hm => hr m' (List.mem_cons_of_mem _ hm))
      fun m' hm => hs m' (List.mem_cons_of_mem _ hm)⟩

theorem count_commit {n : Nat} (i : SeqId) (ms : List (SeqId × Nat)) :
    fed i (ms.flatMap fun m => [Op.prefilled m.1 n,.save m.1 m.2]) = 0 ∧
      recorded i (ms.flatMap fun m => [Op.prefilled m.1 n,.save m.1 m.2]) = (ms.map Prod.fst).count i*n := by
  induction ms with
  | nil => simp
  | cons m ms ih =>
    obtain ⟨hf,hr⟩ := ih
    rw [List.flatMap_cons,fed_append,recorded_append,hf,hr,List.map_cons,List.count_cons]
    refine ⟨rfl,?_⟩
    show (if m.1 = i then n else 0)+0+(0+0)+_ = _
    by_cases hmi : m.1 = i
    · simp [hmi,Nat.add_mul]
      omega
    · simp [hmi]

theorem count_decoded (i : SeqId) (ms : List (SeqId × Nat)) :
    fed i (ms.flatMap fun m => [Op.decoded m.1,.append m.1 m.2]) = 0 ∧
      recorded i (ms.flatMap fun m => [Op.decoded m.1,.append m.1 m.2]) = (ms.map Prod.fst).count i := by
  induction ms with
  | nil => simp
  | cons m ms ih =>
    obtain ⟨hf,hr⟩ := ih
    rw [List.flatMap_cons,fed_append,recorded_append,hf,hr,List.map_cons,List.count_cons]
    refine ⟨rfl,?_⟩
    show (if m.1 = i then 1 else 0)+0+(0+0)+_ = _
    by_cases hmi : m.1 = i
    · simp [hmi]
      omega
    · simp [hmi]

/-- The members of a group are prepared, run through one forward and committed. -/
theorem part_forward {group : List SeqId} {stage : Bool} {start n : Nat} {ts : SeqId → List Token}
    {commit : List Op} (hnd : group.Nodup) (hstart : ∀ i ∈ group, (s.seq i).cachedLen = start)
    (hts : ∀ i ∈ group, (ts i).length = n ∧ Own (s.seq i).tokens start (ts i))
    (hfits : ∀ c : Ctx, (∀ i ∈ group, c.restored i ∧ (stage = true → c.staged i) ∧ c.pos i = c.len i+n) →
      AllFit (fun i => (s.seq i).tokens) c commit)
    (hcount : ∀ i, fed i commit = 0 ∧ recorded i commit = group.count i*n)
    (hseqs : ∀ op ∈ commit, ∀ i ∈ op.seqs, i ∈ group)
    (hphase : ∀ op ∈ commit, op.ofBurst = false ∧ ∀ i, op.result = some i → OpPhase (s.seq i) op) :
    Part s group (prepare stage group ++ [.forward start (group.map fun i => (i,ts i))] ++ commit) := by
  have hmem : ∀ m ∈ group.zipIdx, m.1 ∈ group := fun m hm => by
    rw [← List.zipIdx_map_fst 0 group]
    exact List.mem_map_of_mem hm
  have hins : (group.map fun i => (i,ts i)).map Prod.fst = group := by simp [Function.comp_def]
  have hprep : ∀ op ∈ prepare stage group, op.result = none ∧ op.ofBurst = false ∧ ∀ i ∈ op.seqs, i ∈ group := by
    intro op hop
    obtain ⟨m,hm,hop⟩ := List.mem_flatMap.mp hop
    have hseq : ∀ i ∈ [m.1], i ∈ group := fun i hi => List.mem_singleton.mp hi ▸ hmem m hm
    rcases List.mem_cons.mp hop with rfl | hop
    · exact ⟨rfl,rfl,hseq⟩
    · split at hop
      · obtain rfl := List.mem_singleton.mp hop
        exact ⟨rfl,rfl,hseq⟩
      · simp at hop
  have hfeeds : ∀ i, (Op.forward start (group.map fun i => (i,ts i))).feeds i = group.count i*n := by
    intro i
    by_cases hi : i ∈ group
    · have hmem : (i,ts i) ∈ group.map fun i => (i,ts i) := List.mem_map.mpr ⟨i,hi,rfl⟩
      rw [List.count_eq_one_of_mem hnd hi,Nat.one_mul,← (hts i hi).1]
      exact feeds_mem (by rw [hins]; exact hnd) hmem start
    · rw [List.count_eq_zero.mpr hi,Nat.zero_mul]
      refine Op.feeds_of_notMem ?_
      show i ∉ (group.map fun i => (i,ts i)).map Prod.fst
      rwa [hins]
  refine ⟨fun c hc => ?_,fun op hop i hi => ?_,fun i => ?_,fun op hop => ?_⟩
  · obtain ⟨h₁,h₂,h₃,h₄⟩ := fits_prepare (fun i => (s.seq i).tokens) c stage
      fun m (hm : m ∈ group.zipIdx) => by
        obtain ⟨hp,hl⟩ := hc m.1 (hmem m hm)
        exact hp.trans hl.symm
    rw [List.zipIdx_map_fst] at h₃ h₄
    rw [List.append_assoc]
    refine allFit_append.mpr ⟨h₁,⟨?_,fun m hm => ?_⟩,hfits _ fun i hi => ⟨?_,fun hs => ?_,?_⟩⟩
    · rwa [hins]
    · obtain ⟨i,hi,rfl⟩ := List.mem_map.mp hm
      refine ⟨h₃ i (.inr hi),?_,(hts i hi).2⟩
      rw [Ctx.pos_run,prepare,(h₂ i).1,Nat.add_zero,(hc i hi).1]
      exact (hstart i hi).symm
    · exact h₃ i (.inr hi)
    · exact h₄ hs i (.inr hi)
    · show (c.run (prepare stage group)).pos i+_ = (c.run (prepare stage group)).len i+0+n
      rw [hfeeds,Ctx.pos_run,Ctx.len_run,prepare,(h₂ i).1,(h₂ i).2,(hc i hi).1,(hc i hi).2,
        List.count_eq_one_of_mem hnd hi]
      omega
  · rw [List.append_assoc] at hop
    rcases List.mem_append.mp hop with hop | hop
    · exact (hprep op hop).2.2 i hi
    · rcases List.mem_cons.mp hop with rfl | hop
      · rwa [show (Op.forward start (group.map fun i => (i,ts i))).seqs = group from hins] at hi
      · exact hseqs op hop i hi
  · have hz : fed i (prepare stage group) = 0 ∧ recorded i (prepare stage group) = 0 :=
      (fits_prepare (fun _ => []) ⟨fun _ => 0,fun _ => 0,fun _ => True,fun _ => True,fun _ => True⟩ stage
        fun m (_ : m ∈ group.zipIdx) => rfl).2.1 i
    rw [fed_append,recorded_append,fed_append,recorded_append,hz.1,hz.2,(hcount i).1,(hcount i).2,fed_cons,
      hfeeds]
    simp [Op.records]
  · rw [List.append_assoc] at hop
    rcases List.mem_append.mp hop with hop | hop
    · exact ⟨(hprep op hop).2.1,by simp [(hprep op hop).1]⟩
    · rcases List.mem_cons.mp hop with rfl | hop
      · exact ⟨rfl,by simp [Op.result]⟩
      · exact hphase op hop

theorem part_batchPrefill {group : List SeqId} (hnd : group.Nodup)
    (h : ∀ i ∈ group, Prefills (s.seq i))
    (hsame : ∀ i ∈ group, ∀ j ∈ group, (s.seq i).cachedLen = (s.seq j).cachedLen) :
    Part s group (batchPrefill s group) := by
  have hserial : Part s group (group.flatMap (prefillOne s)) := by
    have := Part.flatMap (l := group) (m := fun i => [i]) (f := prefillOne s)
      (fun i hi => part_prefillOne (h i hi)) (by rwa [List.flatMap_singleton'])
    rwa [List.flatMap_singleton'] at this
  cases group with
  | nil => exact Part.nil
  | cons i rest =>
    unfold batchPrefill
    simp only
    have hi := h i (by simp)
    have hpos : Scheduler.remainingPrompt (s.seq i) ≠ 0 := by
      have := hi.1
      unfold Scheduler.remainingPrompt
      omega
    split
    next hall =>
      split
      · exact hserial
      · have hn : ∀ j ∈ i :: rest, Scheduler.remainingPrompt (s.seq j) = Scheduler.remainingPrompt (s.seq i) := by
          intro j hj
          rcases List.mem_cons.mp hj with rfl | hj
          · rfl
          · exact of_decide_eq_true (List.all_eq_true.mp hall j hj)
        have hpast : ∀ j ∈ i :: rest, (s.seq j).cachedLen = (s.seq i).cachedLen :=
          fun j hj => hsame j hj i (by simp)
        refine part_forward hnd hpast (n := Scheduler.remainingPrompt (s.seq i)) (fun j hj => ⟨?_,fun _ => ?_⟩)
          (fun c hc => fits_commit ?_ ?_ ?_) (fun j => ?_) (fun op hop j hj => ?_) fun op hop => ?_
        · rw [List.length_drop,← hpast j hj]
          exact hn j hj
        · rw [← hpast j hj]
          exact prompt_own (h j hj)
        · rwa [List.zipIdx_map_fst]
        · exact fun m hm => (hc m.1 (List.zipIdx_map_fst 0 (i :: rest) ▸ List.mem_map_of_mem hm)).1
        · exact fun m hm => (hc m.1 (List.zipIdx_map_fst 0 (i :: rest) ▸ List.mem_map_of_mem hm)).2.2
        · have := count_commit (n := Scheduler.remainingPrompt (s.seq i)) j (i :: rest).zipIdx
          rwa [List.zipIdx_map_fst] at this
        · obtain ⟨m,hm,hop⟩ := List.mem_flatMap.mp hop
          have hm' : m.1 ∈ i :: rest := List.zipIdx_map_fst 0 (i :: rest) ▸ List.mem_map_of_mem hm
          simp only [List.mem_cons,List.not_mem_nil,or_false] at hop
          rcases hop with rfl | rfl <;> exact List.mem_singleton.mp hj ▸ hm'
        · obtain ⟨m,hm,hop⟩ := List.mem_flatMap.mp hop
          have hm' : m.1 ∈ i :: rest := List.zipIdx_map_fst 0 (i :: rest) ▸ List.mem_map_of_mem hm
          simp only [List.mem_cons,List.not_mem_nil,or_false] at hop
          rcases hop with rfl | rfl
          · refine ⟨rfl,fun j hj => ?_⟩
            obtain rfl := Option.some.inj hj
            refine ⟨(h _ hm').2,?_⟩
            rw [← hn _ hm']
            have := (h _ hm').1
            unfold Scheduler.remainingPrompt
            omega
          · exact ⟨rfl,by simp [Op.result]⟩
    next => exact hserial

theorem lastToken_own {q : Sequence} (h : Turned q) :
    (Paged.Engine.lastToken q).length = 1 ∧ Own q.tokens q.cachedLen (Paged.Engine.lastToken q) := by
  have hpos : 0 < q.tokens.length := by
    rw [Sequence.tokens,List.length_append]
    have := List.length_pos_of_ne_nil h.1
    omega
  have hlen : (Paged.Engine.lastToken q).length = 1 := by
    rw [Paged.Engine.lastToken,List.length_drop]
    omega
  refine ⟨hlen,fun hle => ?_⟩
  rw [hlen] at hle
  have := h.2
  rw [Paged.Engine.lastToken,show q.tokens.length-1 = q.cachedLen by omega]

theorem part_batchDecode {group : List SeqId} (hnd : group.Nodup) (h : ∀ i ∈ group, Turned (s.seq i))
    (hsame : ∀ i ∈ group, ∀ j ∈ group, (s.seq i).cachedLen = (s.seq j).cachedLen) :
    Part s group (batchDecode s group) := by
  have hlogits : ∀ i ∈ group, Paged.Engine.fromLogits (s.seq i) = false := by
    intro i hi
    simp [Paged.Engine.fromLogits,(h i hi).1]
  have hmem : ∀ m ∈ group.zipIdx, m.1 ∈ group := fun m hm =>
    List.zipIdx_map_fst 0 group ▸ List.mem_map_of_mem hm
  have hnone : group.zipIdx.filter (fun m => Paged.Engine.fromLogits (s.seq m.1)) = [] := by
    rw [List.filter_eq_nil_iff]
    exact fun m hm => by simp [hlogits m.1 (hmem m hm)]
  have hall : group.filter (fun i => ¬ Paged.Engine.fromLogits (s.seq i)) = group := by
    rw [List.filter_eq_self]
    exact fun i hi => by simp [hlogits i hi]
  unfold batchDecode
  simp only
  rw [hnone,hall,List.flatMap_nil,List.nil_append]
  cases group with
  | nil => exact Part.nil
  | cons i rest =>
    have hpast : ∀ j ∈ i :: rest, (s.seq j).cachedLen = (s.seq i).cachedLen :=
      fun j hj => hsame j hj i (by simp)
    refine part_forward hnd hpast (n := 1) (fun j hj => ?_) (fun c hc => fits_decoded ?_ ?_) (fun j => ?_)
      (fun op hop j hj => ?_) fun op hop => ?_
    · rw [← hpast j hj]
      exact lastToken_own (h j hj)
    · exact fun m hm => (hc m.1 (hmem m hm)).1
    · exact fun m hm => (hc m.1 (hmem m hm)).2.1 rfl
    · have := count_decoded j (i :: rest).zipIdx
      rwa [List.zipIdx_map_fst,← Nat.mul_one (List.count j (i :: rest))] at this
    · obtain ⟨m,hm,hop⟩ := List.mem_flatMap.mp hop
      simp only [List.mem_cons,List.not_mem_nil,or_false] at hop
      rcases hop with rfl | rfl <;> exact List.mem_singleton.mp hj ▸ hmem m hm
    · obtain ⟨m,hm,hop⟩ := List.mem_flatMap.mp hop
      simp only [List.mem_cons,List.not_mem_nil,or_false] at hop
      rcases hop with rfl | rfl
      · refine ⟨rfl,fun j hj => ?_⟩
        obtain rfl := Option.some.inj hj
        exact h _ (hmem m hm)
      · exact ⟨rfl,by simp [Op.result]⟩

theorem groups_same {idxs g : List SeqId} (hg : g ∈ Paged.Engine.groups s idxs) :
    ∀ i ∈ g, ∀ j ∈ g, (s.seq i).cachedLen = (s.seq j).cachedLen := by
  have hadd : ∀ (i : SeqId) (gs : List (Nat × List SeqId)),
      (∀ g ∈ gs, ∀ j ∈ g.2, (s.seq j).cachedLen = g.1) →
      ∀ g ∈ Paged.Engine.addToGroup (s.seq i).cachedLen i gs, ∀ j ∈ g.2, (s.seq j).cachedLen = g.1 := by
    intro i gs
    induction gs with
    | nil =>
      intro _ g hg j hj
      obtain rfl := List.mem_singleton.mp hg
      rw [List.mem_singleton.mp hj]
    | cons g₀ gs ih =>
      intro h g hg j hj
      simp only [Paged.Engine.addToGroup] at hg
      split_ifs at hg with hk
      · rcases List.mem_cons.mp hg with rfl | hg
        · rcases List.mem_append.mp hj with hj | hj
          · exact h g₀ (by simp) j hj
          · rw [List.mem_singleton.mp hj]
            exact hk.symm
        · exact h g (List.mem_cons_of_mem _ hg) j hj
      · rcases List.mem_cons.mp hg with rfl | hg
        · exact h _ (by simp) j hj
        · exact ih (fun g hg => h g (List.mem_cons_of_mem _ hg)) g hg j hj
  have hall : ∀ (idxs : List SeqId) (gs : List (Nat × List SeqId)),
      (∀ g ∈ gs, ∀ j ∈ g.2, (s.seq j).cachedLen = g.1) →
      ∀ g ∈ idxs.foldl (fun gs i => Paged.Engine.addToGroup (s.seq i).cachedLen i gs) gs,
        ∀ j ∈ g.2, (s.seq j).cachedLen = g.1 := by
    intro idxs
    induction idxs with
    | nil => exact fun gs h => h
    | cons i idxs ih => exact fun gs h => ih _ (hadd i gs h)
  obtain ⟨g',hg',rfl⟩ := List.mem_map.mp hg
  intro i hi j hj
  rw [hall idxs [] (by simp) g' hg' i hi,hall idxs [] (by simp) g' hg' j hj]

def EntersAs (q : Sequence) (pre : Bool) : Prop :=
  pre = false ∧ Turned q ∨ Fresh q ∧ pre = decide (0 < Scheduler.remainingPrompt q)

theorem fresh_of_prefill {q : Sequence} (h : EntersAs q true) : Fresh q := by
  rcases h with ⟨h,_⟩ | ⟨h,_⟩
  · exact absurd h (by simp)
  · exact h

theorem exact_of_hit {q : Sequence} {pre : Bool} (h : EntersAs q pre)
    (hx : Paged.Engine.exactHit q pre = true) : q.outputIds = [] ∧ q.cachedLen = q.inputIds.length := by
  simp only [Paged.Engine.exactHit,Paged.Engine.fromLogits,Bool.and_eq_true,List.isEmpty_iff] at hx
  refine ⟨hx.1.1,?_⟩
  rcases h with ⟨_,ht⟩ | ⟨⟨_,hle,_⟩,_⟩
  · exact absurd hx.1.1 ht.1
  · have h2 := hx.2
    simp only [Bool.or_eq_true,Bool.and_eq_true,decide_eq_true_eq] at h2
    omega

theorem part_groups {idxs : List SeqId} {P : Sequence → Prop} {f : List SeqId → List Op}
    (hnd : (Paged.Engine.groups s idxs).flatten.Nodup) (hidxs : ∀ i ∈ idxs, P (s.seq i))
    (h : ∀ g : List SeqId, g.Nodup → (∀ i ∈ g, P (s.seq i)) →
      (∀ i ∈ g, ∀ j ∈ g, (s.seq i).cachedLen = (s.seq j).cachedLen) → Part s g (f g)) :
    Part s (Paged.Engine.groups s idxs).flatten ((Paged.Engine.groups s idxs).flatMap f) := by
  rw [← List.flatMap_id] at hnd ⊢
  refine Part.flatMap (fun g hg => h g ?_ (fun i hi => ?_) (groups_same hg)) hnd
  · rw [List.flatMap_id] at hnd
    exact (List.nodup_flatten.mp hnd).1 g hg
  · exact hidxs i (Paged.Engine.mem_groups hg hi)

/-- The program of `run_batch` works on the unfinished members of the batch. -/
theorem part_runBatch {batch : List (SeqId × Bool)} (hnd : (batch.map Prod.fst).Nodup)
    (hb : ∀ i pre, (i,pre) ∈ batch → (s.seq i).finished = false → EntersAs (s.seq i) pre) :
    Part s ((batch.filter fun b => ¬ (s.seq b.1).finished).map Prod.fst) (runBatch s batch) := by
  have hlive : ∀ b ∈ batch.filter (fun b => ¬ (s.seq b.1).finished), EntersAs (s.seq b.1) b.2 := by
    intro b hb'
    obtain ⟨hm,hf⟩ := List.mem_filter.mp hb'
    exact hb b.1 b.2 hm (by simpa using hf)
  have hsub : ((batch.filter fun b => ¬ (s.seq b.1).finished).map Prod.fst).Sublist (batch.map Prod.fst) :=
    List.filter_sublist.map Prod.fst
  have hndl := hsub.nodup hnd
  unfold runBatch
  simp only
  generalize (batch.filter fun b => ¬ (s.seq b.1).finished) = live at hlive hndl
  have hperm := Paged.Engine.parts_perm s live
  have hrest : ∀ b ∈ live.filter (fun b => ¬ Paged.Engine.exactHit (s.seq b.1) b.2),
      EntersAs (s.seq b.1) b.2 ∧ Paged.Engine.exactHit (s.seq b.1) b.2 = false := by
    intro b hb'
    obtain ⟨hl,hx⟩ := List.mem_filter.mp hb'
    exact ⟨hlive b hl,by simpa using hx⟩
  obtain ⟨hnd₁,hndd,hdisj₁⟩ := List.nodup_append.mp (hperm.nodup_iff.mpr hndl)
  obtain ⟨hnde,hndp,hdisj₂⟩ := List.nodup_append.mp hnd₁
  have pe : Part s ((live.filter fun b => Paged.Engine.exactHit (s.seq b.1) b.2).map Prod.fst)
      ((live.filter fun b => Paged.Engine.exactHit (s.seq b.1) b.2).flatMap
        fun b => [.restore b.1 0,.sample b.1]) := by
    rw [List.map_eq_flatMap] at hnde ⊢
    refine Part.flatMap (f := fun b => [.restore b.1 0,.sample b.1]) (fun b hb' => ?_) hnde
    obtain ⟨hl,hx⟩ := List.mem_filter.mp hb'
    obtain ⟨hout,hlen⟩ := exact_of_hit (hlive b hl) hx
    exact part_exact hout hlen
  have pp := part_groups (P := Prefills) hndp (fun i hi => ?_) fun g => part_batchPrefill
  have pd := part_groups (P := Turned) hndd (fun i hi => ?_) fun g => part_batchDecode
  · exact ((pe.append pp fun i hi hi' => hdisj₂ i hi' i hi rfl).append pd fun i hi hi' =>
      hdisj₁ i hi' i hi rfl).perm hperm
  · obtain ⟨b,hb',rfl⟩ := List.mem_map.mp hi
    obtain ⟨hr,hdec⟩ := List.mem_filter.mp hb'
    obtain ⟨hphase,hx⟩ := hrest b hr
    exact Paged.Engine.decodes_of_rest (D := Turned) hphase hx (of_decide_eq_true hdec)
  · obtain ⟨b,hb',rfl⟩ := List.mem_map.mp hi
    obtain ⟨hr,hpre⟩ := List.mem_filter.mp hb'
    obtain ⟨hphase,_⟩ := hrest b hr
    simp only [Bool.and_eq_true,decide_eq_true_eq] at hpre
    rw [hpre.1] at hphase
    exact ⟨hpre.2,(fresh_of_prefill hphase).1⟩

end Parts

end SglangLite.Hybrid
