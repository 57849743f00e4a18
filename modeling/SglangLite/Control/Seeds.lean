import SglangLite.Control.Admission
import SglangLite.Hybrid.Plan
import SglangLite.Loop.Unharmed

set_option autoImplicit false

namespace SglangLite.Control
open Kv Sched Text Loop

def InRange (n : Int) : Prop := -2^63 ≤ n ∧ n ≤ 2^64-1

instance (n : Int) : Decidable (InRange n) := inferInstanceAs (Decidable (_ ∧ _))

/-- `manual_seed` of torch. -/
structure Generators (G : Type) where
  manualSeed : Int → Except Fault G
  accepts : ∀ n, (∃ g, manualSeed n = .ok g) ↔ InRange n

def makeGenerator {G : Type} (t : Generators G) : Option Int → Except Fault (Option G)
  | none => .ok none
  | some n => (t.manualSeed n).map some

/-- Where an exception of `run_batch` comes from. -/
inductive Raised where
  | seed (e : Fault)
  | other (e : Fault)

def Raised.fault : Raised → Fault
  | .seed e => e
  | .other e => e

/-- What `run_batch` does besides `_sample`: its calls in their order, the
sequence that a call samples a token for, and what the call does before and
after that. -/
structure Parts (R Op G : Type) where
  plan : Scheduler → List (SeqId × Bool) → List Op
  result : Op → Option SeqId
  before : R → Op → R × Option Fault
  sampleLogits : R → SeqId → Option G → R × Except Fault Token
  after : R → Op → R
  cached : R → SeqId → Nat
  forwards : R → List Forward
  planned : ∀ s batch i,
    i ∈ (plan s batch).filterMap result ↔ (∃ pre, (i,pre) ∈ batch) ∧ (s.seq i).finished = false

/-- The seed that `_sample` makes a generator from. -/
def stepSeed (seed : Option Int) (q : Sequence) : Option Int :=
  seed.map fun n => n+q.outputIds.length

namespace Parts

variable {R Op G : Type} (p : Parts R Op G) (t : Generators G) (seed : SeqId → Option Int)

def sample (r : R) (i : SeqId) (q : Sequence) : R × Except Raised Token :=
  match makeGenerator t (stepSeed (seed i) q) with
  | .error e => (r,.error (.seed e))
  | .ok g =>
      match p.sampleLogits r i g with
      | (r,.error e) => (r,.error (.other e))
      | (r,.ok tok) => (r,.ok tok)

def runOps (s : Scheduler) : List Op → R → (SeqId → Option Token) →
    R × Except Raised (SeqId → Option Token)
  | [], r, results => (r,.ok results)
  | op :: ops, r, results =>
      match p.before r op with
      | (r,some e) => (r,.error (.other e))
      | (r,none) =>
          match p.result op with
          | none => runOps s ops (p.after r op) results
          | some i =>
              match p.sample t seed r i (s.seq i) with
              | (r,.error e) => (r,.error e)
              | (r,.ok tok) => runOps s ops (p.after r op) (Function.update results i (some tok))

def runBatch (r : R) (s : Scheduler) (batch : List (SeqId × Bool)) : Ran R (List (Option Token)) :=
  let out := p.runOps t seed s (p.plan s batch) r fun _ => none
  { runner := out.1
    cached := p.cached out.1
    forwards := p.forwards out.1
    result := match out.2 with
      | .error e => .error e.fault
      | .ok results => .ok (batch.map fun m => results m.1) }

def SeedFails (r : R) (s : Scheduler) (batch : List (SeqId × Bool)) : Prop :=
  ∃ e, (p.runOps t seed s (p.plan s batch) r fun _ => none).2 = .error (.seed e)

def backend (b : Backend R) : Backend R := { b with runBatch := p.runBatch t seed }

structure Quiet : Prop where
  before : ∀ r op, (p.before r op).2 = none
  sampleLogits : ∀ r i g, ∃ tok, (p.sampleLogits r i g).2 = .ok tok

end Parts

section Plans

/-- `run_batch` with pages or with the caches of the model. -/
def pagedParts {R G V : Type} (cfg : Paged.Config V) (before : R → Paged.Op → R × Option Fault)
    (sampleLogits : R → SeqId → Option G → R × Except Fault Token) (after : R → Paged.Op → R)
    (cached : R → SeqId → Nat) (forwards : R → List Forward) : Parts R Paged.Op G where
  plan := Paged.Engine.runBatch cfg
  result := Paged.Op.result
  before := before
  sampleLogits := sampleLogits
  after := after
  cached := cached
  forwards := forwards
  planned := fun s batch i => by
    have hmem := (@Paged.Engine.resultsOf_runBatch V cfg s batch).mem_iff (a := i)
    simp only [Paged.Engine.resultsOf] at hmem
    rw [hmem]
    simp

/-- `run_batch` of a V4 model. -/
def hybridParts {R G : Type} (before : R → Hybrid.Op → R × Option Fault)
    (sampleLogits : R → SeqId → Option G → R × Except Fault Token) (after : R → Hybrid.Op → R)
    (cached : R → SeqId → Nat) (forwards : R → List Forward) : Parts R Hybrid.Op G where
  plan := Hybrid.Engine.runBatch
  result := Hybrid.Op.result
  before := before
  sampleLogits := sampleLogits
  after := after
  cached := cached
  forwards := forwards
  planned := fun s batch i => by
    have hmem := (Hybrid.Engine.resultsOf_runBatch s batch).mem_iff (a := i)
    simp only [Hybrid.Engine.resultsOf] at hmem
    rw [hmem]
    simp

end Plans

def Taken (seed : Option Int) (q : Sequence) : Prop := ∀ n ∈ stepSeed seed q, InRange n

def AllTaken (seed : SeqId → Option Int) (s : Scheduler) (batch : List (SeqId × Bool)) : Prop :=
  ∀ m ∈ batch, (s.seq m.1).finished = false → Taken (seed m.1) (s.seq m.1)

section Batch

variable {R Op G : Type} {p : Parts R Op G} {t : Generators G} {seed : SeqId → Option Int}
  {s : Scheduler}

theorem makeGenerator_ok {seed : Option Int} :
    (∃ g, makeGenerator t seed = .ok g) ↔ ∀ n ∈ seed, InRange n := by
  cases seed with
  | none => simp [makeGenerator]
  | some n =>
    simp only [makeGenerator,Option.mem_some_iff,forall_eq',← t.accepts]
    cases t.manualSeed n <;> simp [Except.map]

theorem sample_seed {r : R} {i : SeqId} {q : Sequence} {e : Fault}
    (h : (p.sample t seed r i q).2 = .error (.seed e)) : ¬ Taken (seed i) q := by
  intro ht
  obtain ⟨g,hg⟩ := makeGenerator_ok.mpr ht
  unfold Parts.sample at h
  rw [hg] at h
  simp only at h
  split at h <;> cases h

theorem sample_ok (hp : p.Quiet) (r : R) (i : SeqId) (q : Sequence) :
    (∃ tok, (p.sample t seed r i q).2 = .ok tok) ↔ Taken (seed i) q := by
  unfold Parts.sample Taken
  rw [← makeGenerator_ok]
  cases hg : makeGenerator t (stepSeed (seed i) q) with
  | error e => simp
  | ok g =>
    refine iff_of_true ?_ ⟨g,rfl⟩
    obtain ⟨tok,htok⟩ := hp.sampleLogits r i g
    simp only
    generalize p.sampleLogits r i g = out at htok ⊢
    obtain ⟨r',res⟩ := out
    cases htok
    exact ⟨tok,rfl⟩

theorem runOps_seed {ops : List Op} {r : R} {results : SeqId → Option Token} {e : Fault}
    (h : (p.runOps t seed s ops r results).2 = .error (.seed e)) :
    ∃ i ∈ ops.filterMap p.result, ¬ Taken (seed i) (s.seq i) := by
  induction ops generalizing r results with
  | nil => cases h
  | cons op ops ih =>
    have hlater : (∃ i ∈ ops.filterMap p.result, ¬ Taken (seed i) (s.seq i)) →
        ∃ i ∈ (op :: ops).filterMap p.result, ¬ Taken (seed i) (s.seq i) := by
      rintro ⟨i,hi,hn⟩
      refine ⟨i,?_,hn⟩
      rw [List.filterMap_cons]
      split
      · exact hi
      · exact List.mem_cons_of_mem _ hi
    rw [Parts.runOps] at h
    split at h
    · cases h
    · split at h
      · exact hlater (ih h)
      · rename_i i hop
        split at h
        · rename_i e' hs
          obtain rfl := Except.error.inj h
          exact ⟨i,by simp [hop],sample_seed (congrArg Prod.snd hs)⟩
        · exact hlater (ih h)

/-- When nothing else raises, `run_batch` ends well exactly when the seeds of
all the sequences that it samples for are taken. -/
theorem runOps_ok (hp : p.Quiet) (ops : List Op) (r : R) (results : SeqId → Option Token) :
    (∃ out, (p.runOps t seed s ops r results).2 = .ok out) ↔
      ∀ i ∈ ops.filterMap p.result, Taken (seed i) (s.seq i) := by
  induction ops generalizing r results with
  | nil => simp [Parts.runOps]
  | cons op ops ih =>
    have hbefore := hp.before r op
    rw [Parts.runOps]
    generalize p.before r op = b at hbefore ⊢
    obtain ⟨r',fault⟩ := b
    cases hbefore
    simp only
    rw [List.filterMap_cons]
    cases hop : p.result op with
    | none => exact ih _ _
    | some i =>
      simp only [List.forall_mem_cons]
      rw [← sample_ok hp r' i (s.seq i)]
      cases hs : p.sample t seed r' i (s.seq i) with
      | mk r'' out =>
        cases out with
        | error e => simp
        | ok tok => simpa using ih _ _

theorem allTaken_iff {batch : List (SeqId × Bool)} : AllTaken seed s batch ↔
    ∀ i ∈ (p.plan s batch).filterMap p.result, Taken (seed i) (s.seq i) := by
  constructor
  · intro h i hi
    obtain ⟨⟨pre,hm⟩,hf⟩ := (p.planned s batch i).mp hi
    exact h _ hm hf
  · exact fun h m hm hf => h m.1 ((p.planned s batch m.1).mpr ⟨⟨m.2,hm⟩,hf⟩)

variable (t seed s) in
theorem runBatch_ok (hp : p.Quiet) (r : R) (batch : List (SeqId × Bool)) :
    (∃ toks, (p.runBatch t seed r s batch).result = .ok toks) ↔ AllTaken seed s batch := by
  rw [allTaken_iff (p := p),← runOps_ok (t := t) hp (p.plan s batch) r fun _ => none]
  unfold Parts.runBatch
  simp only
  cases (p.runOps t seed s (p.plan s batch) r fun _ => none).2 <;> simp

end Batch

section Requests

def SeedFits (seed : Option Int) (maxTokens : Nat) : Prop :=
  ∀ n ∈ seed, -2^63 ≤ n ∧ n+maxTokens-1 ≤ 2^64-1

instance (seed : Option Int) (maxTokens : Nat) : Decidable (SeedFits seed maxTokens) :=
  match seed with
  | none => isTrue fun _ h => (nomatch h)
  | some n => decidable_of_iff (-2^63 ≤ n ∧ n+maxTokens-1 ≤ 2^64-1) (by simp [SeedFits])

def TakenThroughout (seed : Option Int) (maxTokens : Nat) : Prop :=
  ∀ q : Sequence, q.outputIds.length < maxTokens → Taken seed q

theorem SeedFits.taken {seed : Option Int} {maxTokens : Nat} (h : SeedFits seed maxTokens) :
    TakenThroughout seed maxTokens := by
  intro q hq n hn
  obtain ⟨k,hk,rfl⟩ := Option.map_eq_some_iff.mp hn
  obtain ⟨hlow,hhigh⟩ := h k hk
  constructor <;> omega

theorem takenThroughout_iff {seed : Option Int} {maxTokens : Nat} (hpos : 1 ≤ maxTokens) :
    TakenThroughout seed maxTokens ↔ SeedFits seed maxTokens := by
  refine ⟨fun h n hn => ?_,SeedFits.taken⟩
  have hat : ∀ k < maxTokens, InRange (n+k) := by
    intro k hk
    refine h { requestId := "", inputIds := [], outputIds := List.replicate k 0 } (by simpa using hk) _ ?_
    simp [stepSeed,Option.mem_def.mp hn]
  have hfirst := (hat 0 hpos).1
  have hlast := (hat (maxTokens-1) (by omega)).2
  constructor <;> omega

end Requests

section Runs
open EngineLoop Concurrent

variable {R V Op G : Type} {h : Hands R V} {b : Backend R} {p : Parts R Op G} {t : Generators G}
  {seed : SeqId → Option Int} {l : EngineLoop R}

def SeedsFit (seed : SeqId → Option Int) (l : EngineLoop R) : Prop :=
  ∀ i, (l.seq i).finished = false → SeedFits (seed i) (l.seq i).maxTokens

theorem frugal_seeded (h : Hands R V) (b : Backend R) (p : Parts R Op G) (t : Generators G)
    (seed : SeqId → Option Int) : Frugal (p.backend t seed (h.backend b)) :=
  let hb := h.frugal_backend b
  ⟨hb.burst,hb.fault,hb.hit⟩

theorem allTaken_of_fits (cfg : SchedConfig) (hb : Budgeted l) (hs : SeedsFit seed l)
    (batch : List (SeqId × Bool)) : AllTaken seed (l.sched.step cfg).1 batch :=
  fun m _ hf => (hs m.1 hf).taken _ ((hb.seqs m.1).room hf)

/-- When nothing else raises, a batch fails exactly when the seed of a member
is not taken. -/
theorem batchFails_iff (hp : p.Quiet) :
    (∃ e, BatchFails (p.backend t seed b) l e) ↔
      ¬ AllTaken seed (l.sched.step b.sched).1 (batchOf b l) := by
  have hok := runBatch_ok t seed (l.sched.step b.sched).1 hp l.runner (batchOf b l)
  rw [← hok]
  constructor
  · rintro ⟨e,_,he⟩ ⟨toks,htoks⟩
    have hres : (p.runBatch t seed l.runner (l.sched.step b.sched).1 (batchOf b l)).result = .error e := he
    rw [hres] at htoks
    cases htoks
  · intro hn
    cases hres : (p.runBatch t seed l.runner (l.sched.step b.sched).1 (batchOf b l)).result with
    | ok toks => exact absurd ⟨toks,hres⟩ hn
    | error e =>
      refine ⟨e,fun hnil => hn (hok.mpr ?_),hres⟩
      have hnil' : batchOf b l = [] := hnil
      rw [hnil']
      exact fun m hm => (nomatch hm)

theorem hybridParts_batchFails_iff {before : R → Hybrid.Op → R × Option Fault}
    {sampleLogits : R → SeqId → Option G → R × Except Fault Token} {after : R → Hybrid.Op → R}
    {cached : R → SeqId → Nat} {forwards : R → List Forward}
    (hp : (hybridParts before sampleLogits after cached forwards).Quiet) :
    (∃ e, BatchFails ((hybridParts before sampleLogits after cached forwards).backend t seed b) l e) ↔
      ¬ AllTaken seed (l.sched.step b.sched).1 (batchOf b l) :=
  batchFails_iff hp

/-- A seed that fits never makes `run_batch` raise, whatever else does, and
nobody ends with an error for it; exactly the seeds that fit are taken at every
step of a request that the control plane or the engine process accepts. -/
theorem seed_fails_no_batch_iff (h : Hands R V) (b : Backend R) (p : Parts R Op G) (t : Generators G)
    (seed : SeqId → Option Int) (r₀ : R) :
    (∀ state uuid req g, chatCompletions state uuid req = .ok g →
      (TakenThroughout (g.seed.map fun s => (s.toNat : Int)) g.maxTokens.toNat ↔
        SeedFits (g.seed.map fun s => (s.toNat : Int)) g.maxTokens.toNat)) ∧
    (∀ r : GenerationRequest, r.errors = [] →
      (TakenThroughout r.seed r.maxTokens.toNat ↔ SeedFits r.seed r.maxTokens.toNat)) ∧
    (∀ l, p.Quiet → ((∃ e, BatchFails (p.backend t seed (h.backend b)) l e) ↔
      ¬ AllTaken seed (l.sched.step b.sched).1 (batchOf b l))) ∧
    ∀ es m, Transition.exec (step (p.backend t seed (h.backend b))) (init r₀) es = some m →
      (SeedsFit seed m.shared.loop →
        AllTaken seed (m.shared.loop.sched.step b.sched).1 (batchOf b m.shared.loop) ∧
        ¬ p.SeedFails t seed m.shared.loop.runner (m.shared.loop.sched.step b.sched).1
          (batchOf b m.shared.loop)) ∧
      (p.Quiet → Transition.Guarded (step (p.backend t seed (h.backend b)))
        (fun m _ => SeedsFit seed m.shared.loop) (init r₀) es → Unharmed m.shared.loop) := by
  have hb := frugal_seeded h b p t seed
  refine ⟨fun state uuid req g hg => takenThroughout_iff (checked_of_ok hg).maxTokens,fun r hr => ?_,
    fun l hp => batchFails_iff hp,fun es m hrun => ⟨fun hs => ?_,fun hp hg => ?_⟩⟩
  · have hmax := (GenerationRequest.errors_eq_nil.mp hr).1
    exact takenThroughout_iff (by omega)
  · have hm := Transition.exec_always (fun _ _ _ hi hs => accounted_step hb hi hs) (accounted_init r₀) hrun
    have htaken := allTaken_of_fits b.sched (hm .loop).1 hs (batchOf b m.shared.loop)
    refine ⟨htaken,fun ⟨e,he⟩ => ?_⟩
    obtain ⟨i,hi,hn⟩ := runOps_seed he
    exact hn (allTaken_iff.mp htaken i hi)
  · refine unharmed_run (hg.of_invariant (fun _ _ _ hi hs => accounted_step hb hi hs)
      (fun m _ hi hs e he => ?_) (accounted_init r₀)) hrun
    exact (batchFails_iff hp).mp ⟨e,he⟩ (allTaken_of_fits _ (hi .loop).1 hs _)

def seededBy : Generators Int where
  manualSeed n := if InRange n then .ok n else .error (.other "Overflow when unpacking long")
  accepts n := by
    split_ifs with h <;> simp [h]

def partsOfFives : Parts (SeqId → Nat) Paged.Op Int :=
  pagedParts (V := Nat) ⟨⟨1,8,Nat.one_pos,Kv.pos_eight⟩,{},.hfCache,1,none,⟨none⟩,fun _ => 0⟩
    (fun r _ => (r,none)) (fun r _ _ => (r,.ok 5))
    (fun r op => match op with
      | .commitPrefill i => Function.update r i 1
      | .commitDecode i => Function.update r i (r i+1)
      | _ => r)
    (fun r => r) fun _ => []

def handsWithRows : Hands (SeqId → Nat) Nat where
  cache := ⟨1,8,Nat.one_pos,Kv.pos_eight⟩
  hybrid := false
  eos := none
  usePagedAsSource := false
  supportsPagedAttention := false
  radix := fun _ => .empty
  matched := fun r _ _ _ => r
  entries := fun _ => []
  attach := fun r _ _ => (r,.ok ())
  kvState := fun _ _ => true
  lastLogits := fun _ _ => none
  restore := fun r _ => (r,none)
  stage := fun r _ => (r,none)
  decodeOne := fun r _ q => ⟨r,q.tokens.length,[],.ok 5⟩
  greedyStep := fun r _ q => ⟨r,q.tokens.length,[],.ok 5⟩

def fivesWithRows : Backend (SeqId → Nat) where
  sched := {}
  hybrid := false
  burst := 1
  eos := none
  tk := ⟨none⟩
  matchPrefix := fun r _ _ => (r,.ok (0,0))
  runBatch := fun r _ _ => { runner := r, cached := r, forwards := [], result := .ok [] }
  decodeBurst := fun r _ _ _ => { runner := r, cached := r, forwards := [], result := .ok [] }
  insert := fun r _ _ => r
  release := fun r _ => r
  close := fun r _ => r

theorem partsOfFives_quiet : partsOfFives.Quiet := ⟨fun _ _ => rfl,fun _ _ _ => ⟨5,rfl⟩⟩

def firstSeed (n : Int) (i : SeqId) : Option Int := if i = 0 then some n else none

def seededFives (n : Int) : Backend (SeqId → Nat) :=
  partsOfFives.backend seededBy (firstSeed n) (handsWithRows.backend fivesWithRows)

def together (k : Nat) : List Concurrent.Event :=
  .call (.submit 0 (ask "a" 2).2) :: ticks (.http 0) 5 ++ .call (.submit 0 (ask "b" 2).2) ::
    ticks (.http 0) 5 ++ .call .runIteration :: ticks .loop 28 ++ .call .runIteration :: ticks .loop k

def seedsFit (seed : SeqId → Option Int) (l : EngineLoop R) : Bool :=
  (List.range l.sched.seqs.length).all fun i =>
    (l.seq i).finished || decide (SeedFits (seed i) (l.seq i).maxTokens)

theorem SeedsFit.of_test (hl : seedsFit seed l = true) : SeedsFit seed l := by
  intro i hi
  have hlt : i < l.sched.seqs.length := Scheduler.lt_of_unfinished hi
  have htest := List.all_eq_true.mp hl i (List.mem_range.mpr hlt)
  simpa [hi] using htest

def helloTwice (seed : UInt64) : ChatCompletionRequest :=
  { hello none with maxTokens := some 2, seed := some seed }

/-- The seed is the largest but one of a request of two tokens. -/
theorem seed_fails_no_batch_fits :
    (∃ g, chatCompletions ready "0" (helloTwice 18446744073709551614) = .ok g ∧
      TakenThroughout (g.seed.map fun s => (s.toNat : Int)) g.maxTokens.toNat) ∧
    TakenThroughout (some (-2^63)) 2 ∧
    ∃ m, Transition.exec (step (seededFives (2^64-2))) (init fun _ => 0) (together 26) = some m ∧
      ¬ partsOfFives.SeedFails seededBy (firstSeed (2^64-2)) m.shared.loop.runner
        (m.shared.loop.sched.step {}).1 (batchOf fivesWithRows m.shared.loop) ∧
      (¬ ∃ e, BatchFails (seededFives (2^64-2)) m.shared.loop e) ∧ Unharmed m.shared.loop := by
  obtain ⟨hcontrol,hengine,hbatch,hruns⟩ := seed_fails_no_batch_iff handsWithRows fivesWithRows
    partsOfFives seededBy (firstSeed (2^64-2)) fun _ => 0
  refine ⟨?_,?_,?_⟩
  · have hok : ((chatCompletions ready "0" (helloTwice 18446744073709551614)).toOption.map fun g =>
        decide (SeedFits (g.seed.map fun s => (s.toNat : Int)) g.maxTokens.toNat)) = some true := by
      decide +kernel
    obtain ⟨g,hg,hfit⟩ := Option.map_eq_some_iff.mp hok
    have hg := ok_of_toOption hg
    exact ⟨g,hg,(hcontrol _ _ _ g hg).mpr (of_decide_eq_true hfit)⟩
  · have hok : ({ requestId := "b", maxTokens := 2, seed := some (-2^63) } : GenerationRequest).errors = [] := by
      decide +kernel
    exact (hengine _ hok).mpr (by decide)
  · have hrun : ((Transition.exec (step (seededFives (2^64-2))) (init fun _ => 0) (together 26)).map fun m =>
        seedsFit (firstSeed (2^64-2)) m.shared.loop) = some true := by
      decide +kernel
    have hfits : Transition.checks (step (seededFives (2^64-2)))
        (fun m _ => seedsFit (firstSeed (2^64-2)) m.shared.loop) (init fun _ => 0) (together 26) = true := by
      decide +kernel
    obtain ⟨m,hm,hfit⟩ := Option.map_eq_some_iff.mp hrun
    obtain ⟨hnow,hthen⟩ := hruns _ m hm
    obtain ⟨htaken,hseed⟩ := hnow (.of_test hfit)
    refine ⟨m,hm,hseed,fun hf => (hbatch _ partsOfFives_quiet).mp hf htaken,?_⟩
    exact hthen partsOfFives_quiet (.of_checks (fun _ _ h => .of_test h) hfits)

/-- The largest seed that the control plane accepts, with two tokens: the second
step overflows, and the other request of the batch, which has no seed, ends with
an error. The engine process accepts seeds that overflow at once. -/
theorem seed_overflows_with_batch :
    (∃ g, chatCompletions ready "0" (helloTwice 18446744073709551615) = .ok g ∧
      g.seed = some 18446744073709551615 ∧ ¬ TakenThroughout (g.seed.map fun s => (s.toNat : Int))
        g.maxTokens.toNat) ∧
    (({ requestId := "b", seed := some (2^64) } : GenerationRequest).errors = [] ∧
      ¬ TakenThroughout (some (2^64)) 128) ∧
    ∃ m, Transition.exec (step (seededFives (2^64-1))) (init fun _ => 0) (together 17) = some m ∧
      firstSeed (2^64-1) 1 = none ∧ ((m.shared.loop.seq 0).outputIds,(m.shared.loop.seq 0).finishReason,
        (m.shared.loop.seq 1).outputIds,(m.shared.loop.seq 1).finishReason) =
          ([5],some .error,[5],some .error) := by
  refine ⟨?_,⟨by decide +kernel,?_⟩,?_⟩
  · have hok : ((chatCompletions ready "0" (helloTwice 18446744073709551615)).toOption.map fun g =>
        (g.seed,g.maxTokens)) = some (some 18446744073709551615,2) := by
      decide +kernel
    obtain ⟨g,hg,hfields⟩ := Option.map_eq_some_iff.mp hok
    obtain ⟨hseed,hmax⟩ := Prod.mk.inj hfields
    refine ⟨g,ok_of_toOption hg,hseed,?_⟩
    rw [hseed,hmax,takenThroughout_iff (by decide)]
    decide
  · rw [takenThroughout_iff (by decide)]
    decide
  · have hrun : ((Transition.exec (step (seededFives (2^64-1))) (init fun _ => 0) (together 17)).map fun m =>
        ((m.shared.loop.seq 0).outputIds,(m.shared.loop.seq 0).finishReason,
          (m.shared.loop.seq 1).outputIds,(m.shared.loop.seq 1).finishReason)) =
        some ([5],some .error,[5],some .error) := by
      decide +kernel
    obtain ⟨m,hm,hends⟩ := Option.map_eq_some_iff.mp hrun
    exact ⟨m,hm,rfl,hends⟩

end Runs

end SglangLite.Control
