import SglangLite.Transition
import SglangLite.Kv.Ownership
import SglangLite.Sched.Scheduler
import SglangLite.Text.Post

set_option autoImplicit false

namespace SglangLite.Paged
open Kv Sched Text

/-- How a non-hybrid runner keeps KV: rebuilt from pages for every forward,
read from pages by the attention kernel, or only in the HF cache object. -/
inductive KvMode where
  | hfRebuild
  | pagedAttention
  | hfCache
  deriving DecidableEq, Repr

/-- What is fixed during a run. `kv p` stands for the KV of the last token of
the token prefix `p`. The loop `_run` never bursts, like `pump_once` with
`burst` at most 1. -/
structure Config (V : Type) where
  cache : CacheConfig
  sched : SchedConfig
  mode : KvMode
  burst : Nat
  eos : Option Token
  tk : Tokenizer
  kv : List Token → V

/-- The calls `run_batch` and `run_decode_burst` make one after the other. -/
inductive Op where
  | ensure (i : SeqId) (total : Nat)
  | cow (i : SeqId)
  | forward (group : List SeqId)
  | sample (i : SeqId)
  | commitPrefill (i : SeqId)
  | commitDecode (i : SeqId)
  | burst (i : SeqId) (n : Nat)
  | commitBurst (i : SeqId)
  deriving DecidableEq, Repr

def Op.result : Op → Option SeqId
  | .sample i => some i
  | .commitPrefill i => some i
  | .commitDecode i => some i
  | _ => none

inductive Pc where
  | idle
  | stepped (batch : List (SeqId × Bool))
  | inBatch (batch : List (SeqId × Bool)) (todo : List Op) (results : SeqId → Option Token)
  | posting (todo : List (SeqId × Option Token × Bool))
  | bursting (i : SeqId) (todo : List Op) (toks : List Token)

structure Engine (V : Type) where
  sched : Scheduler
  radix : RadixCache V
  pc : Pc

/-- The steps of the loop thread and of the HTTP side. What the environment
decides is a label: the sampled token, whether a forward raises, whether the
id is in `_cancelled`, the `_prev_text`, and whether a delta queue is full. -/
inductive Event where
  | addRequest (r : Request)
  | cancel (r : RequestId)
  | step
  | check
  | exec (tok : Token) (raises : Bool) (full : RequestId → Bool)
  | finishBatch
  | post (cancelled : Bool) (prev : Text) (full : Bool)
  | finishBurst (prev : Text) (full : Bool)

namespace Engine

variable {V : Type}

def init [Zero V] : Engine V := ⟨{},.empty,.idle⟩

def seq (e : Engine V) (i : SeqId) : Sequence := e.sched.seq i

def modify (e : Engine V) (i : SeqId) (f : Sequence → Sequence) : Engine V :=
  { e with sched := e.sched.modify i f }

/-- `_run_prefill_groups` and `_run_decode_groups` collect indices by
`cached_len`, in order of first occurrence. -/
def addToGroup (key : Nat) (i : SeqId) : List (Nat × List SeqId) → List (Nat × List SeqId)
  | [] => [(key,[i])]
  | (k,g) :: rest => if k = key then (k,g ++ [i]) :: rest else (k,g) :: addToGroup key i rest

def groups (s : Scheduler) (idxs : List SeqId) : List (List SeqId) :=
  (idxs.foldl (fun gs i => addToGroup (s.seq i).cachedLen i gs) []).map Prod.snd

section Plan

variable (cfg : Config V) (s : Scheduler)

/-- Page bookkeeping happens only with `use_paged_as_source`. -/
def paged (ops : List Op) : List Op := if cfg.mode = .hfCache then [] else ops

def prefillOne (i : SeqId) : List Op :=
  if Scheduler.remainingPrompt (s.seq i) = 0 then [.sample i]
  else paged cfg [.ensure i (s.seq i).inputIds.length] ++ [.forward [i],.commitPrefill i]

/-- `_batch_prefill` of a group with one `cached_len`. -/
def batchPrefill (group : List SeqId) : List Op :=
  match group.map fun i => Scheduler.remainingPrompt (s.seq i) with
  | [] => []
  | n :: rest =>
      if rest.all (· = n) then
        if n = 0 then group.map .sample
        else
          paged cfg (group.map fun i => .ensure i ((s.seq i).cachedLen+n)) ++
            [.forward group] ++ group.map .commitPrefill
      else group.flatMap (prefillOne cfg s)

def fromLogits (q : Sequence) : Bool := q.outputIds.isEmpty && q.lastLogits

/-- `_batch_decode` of a group with one `cached_len`. -/
def batchDecode (group : List SeqId) : List Op :=
  let pending := group.filter fun i => ¬ fromLogits (s.seq i)
  (group.filter fun i => fromLogits (s.seq i)).map .sample ++
    if pending = [] then []
    else
      paged cfg (pending.flatMap fun i => [.ensure i ((s.seq i).cachedLen+1),.cow i]) ++
        [.forward pending] ++ pending.map .commitDecode

/-- An exact prefix hit in the first loop of `run_batch`. -/
def exactHit (q : Sequence) (prefill : Bool) : Bool :=
  fromLogits q && (decide (q.inputIds.length ≤ q.cachedLen) ||
    (!prefill && decide (q.cachedLen = q.inputIds.length)))

/-- `run_batch`: the finished check and the classification, then the prefill
groups, then the decode groups. -/
def runBatch (batch : List (SeqId × Bool)) : List Op :=
  let live := batch.filter fun b => ¬ (s.seq b.1).finished
  let exact := live.filter fun b => exactHit (s.seq b.1) b.2
  let rest := live.filter fun b => ¬ exactHit (s.seq b.1) b.2
  let isPrefill := fun b : SeqId × Bool =>
    b.2 && decide ((s.seq b.1).cachedLen < (s.seq b.1).inputIds.length)
  exact.map (fun b => .sample b.1) ++
    (groups s ((rest.filter fun b => isPrefill b).map Prod.fst)).flatMap (batchPrefill cfg s) ++
    (groups s ((rest.filter fun b => ¬ isPrefill b).map Prod.fst)).flatMap (batchDecode cfg s)

end Plan

section Calls

variable [Zero V] (cfg : Config V)

/-- `mark_finished` with the release of the sequence's pages. -/
def mark (e : Engine V) (i : SeqId) (reason : FinishReason) : Engine V :=
  { e with
    radix := e.radix.releaseBlocks (e.seq i).blockTable
    sched := e.sched.markFinished i reason }

/-- `Scheduler.cancel`. -/
def cancelRequest (e : Engine V) (r : RequestId) : Engine V :=
  match e.sched.byRequest r with
  | none => e
  | some i => (e.modify i fun q => { q with cancelled := true }).mark i .cancelled

/-- The effect of `_emit` on the scheduler: a full queue cancels the request. -/
def emit (e : Engine V) (full : Bool) (r : RequestId) : Engine V :=
  if full then e.cancelRequest r else e

/-- `add_request` with the rest of `_admit_pending`; `submit` has refused an
empty prompt and a token limit of zero. -/
def addRequest (e : Engine V) (r : Request) : Option (Engine V) :=
  if r.inputIds = [] ∨ r.maxTokens = 0 then none else
  let (radix,m) := e.radix.matchPrefix cfg.cache r.inputIds
  let q : Sequence :=
    { r.sequence cfg.eos with
      cachedLen := m.len, cacheHitTokens := if m.blockIds = [] then 0 else m.len
      blockTable := m.blockIds, kvState := m.pastKv, lastLogits := m.lastLogits }
  (e.sched.addRequest cfg.sched q).map fun sched => { e with sched := sched, radix := radix }

/-- The loop of `_ensure_blocks` with `n` pages to go; `false` is the
`MemoryError`. -/
def ensureLoop (i : SeqId) : Nat → Engine V → Engine V × Bool
  | 0, e => (e,true)
  | n+1, e =>
      match e.radix.allocateBlocks cfg.cache 1 with
      | (radix,some ids) =>
          ensureLoop i n (({ e with radix := radix }).modify i fun q =>
            { q with blockTable := q.blockTable ++ ids })
      | (radix,none) => ({ e with radix := radix },false)

def ensureBlocks (e : Engine V) (i : SeqId) (total : Nat) : Engine V × Bool :=
  ensureLoop cfg i (cfg.cache.pages total-(e.seq i).blockTable.length) e

def cowPage (e : Engine V) (i : SeqId) : Engine V × Bool :=
  let page := (e.seq i).cachedLen/cfg.cache.blockSize
  match (e.seq i).blockTable[page]? with
  | none => (e,true)
  | some b =>
      match e.radix.cowBlockIfShared cfg.cache b with
      | (radix,some b') =>
          (({ e with radix := radix }).modify i fun q =>
            { q with blockTable := q.blockTable.set page b' },true)
      | (radix,none) => ({ e with radix := radix },false)

/-- The KV a prefill forward computes: one value per new prompt position. -/
def prefillKv (q : Sequence) : List V :=
  (List.range (Scheduler.remainingPrompt q)).map fun j =>
    cfg.kv (q.inputIds.take (q.cachedLen+j+1))

/-- The last token, which a decode forward processes at `cached_len`. -/
def lastToken (q : Sequence) : List Token := q.tokens.drop (q.tokens.length-1)

def decodeKv (q : Sequence) : List V := [cfg.kv (q.tokens.take q.cachedLen ++ lastToken q)]

/-- The page write after a forward. `_commit_pages` tops up the table first;
with paged attention the kernel wrote through the table it was given. -/
def commitPages (e : Engine V) (i : SeqId) (vals : List V) : Engine V × Bool :=
  let start := (e.seq i).cachedLen
  match cfg.mode with
  | .hfCache => (e,true)
  | .pagedAttention =>
      ({ e with radix := RadixCache.writeKv cfg.cache (e.seq i).blockTable e.radix start vals },true)
  | .hfRebuild =>
      match ensureBlocks cfg e i (start+vals.length) with
      | (e',false) => (e',false)
      | (e',true) =>
          ({ e' with
              radix := RadixCache.writeKv cfg.cache (e'.seq i).blockTable e'.radix start vals },true)

/-- What is left of a burst of `n` more tokens. The greedy paths look at no
`finished` flag, and the paged one copies only on entering a page. -/
def burstOps (q : Sequence) (i : SeqId) : Nat → List Op
  | 0 => []
  | n+1 =>
      let page := [.ensure i (q.cachedLen+1),.cow i]
      let rest := [.forward [i],.commitBurst i,.burst i n]
      if cfg.mode = .pagedAttention ∧ q.greedy then
        (if q.cachedLen%cfg.cache.blockSize = 0 ∨ q.blockTable = [] then page else []) ++ rest
      else if cfg.mode = .hfCache ∧ q.greedy ∧ q.kvState then rest
      else if q.finished then []
      else paged cfg page ++ rest

/-- A burst ends at the end-of-sequence token; only the generic path does so
for `ignore_eos` requests too. -/
def burstStops (q : Sequence) (tok : Token) : Bool :=
  decide (cfg.eos = some tok) &&
    (!q.ignoreEos || decide (cfg.mode = .hfRebuild) || !q.greedy)

def execOp (e : Engine V) (rest : List Op) (tok : Token) (raises : Bool) :
    Op → Engine V × Bool × List Op
  | .ensure i total =>
      let (e',ok) := ensureBlocks cfg e i total
      (e',ok,rest)
  | .cow i =>
      let (e',ok) := cowPage cfg e i
      (e',ok,rest)
  | .forward _ => (e,!raises,rest)
  | .sample i =>
      if (e.seq i).lastLogits then
        (e.modify i fun q => { q with cachedLen := q.inputIds.length },!raises,rest)
      else (e,false,rest)
  | .commitPrefill i =>
      match commitPages cfg e i (prefillKv cfg (e.seq i)) with
      | (e',false) => (e',false,rest)
      | (e',true) =>
          (e'.modify i fun q =>
            { q with
              cachedLen := q.cachedLen+Scheduler.remainingPrompt q
              lastLogits := true
              kvState := decide (cfg.mode = .hfCache) },!raises,rest)
  | .commitDecode i =>
      match commitPages cfg e i (decodeKv cfg (e.seq i)) with
      | (e',false) => (e',false,rest)
      | (e',true) =>
          (e'.modify i fun q =>
            { q with cachedLen := q.cachedLen+1, kvState := decide (cfg.mode = .hfCache) },
            !raises,rest)
  | .burst i n => (e,true,burstOps cfg (e.seq i) i n ++ rest)
  | .commitBurst i =>
      match commitPages cfg e i (decodeKv cfg (e.seq i)) with
      | (e',false) => (e',false,rest)
      | (e',true) =>
          (e'.modify i fun q =>
            { q with
              cachedLen := q.cachedLen+1
              kvState := decide (cfg.mode = .hfCache)
              outputIds := if raises then q.outputIds else q.outputIds ++ [tok] },
            !raises,if burstStops cfg (e.seq i) tok then [] else rest)

/-- The `except` branch of `pump_once`: every member of the batch ends with
`error`. -/
def abortBatch (full : RequestId → Bool) (e : Engine V) : List (SeqId × Bool) → Engine V
  | [] => { e with pc := .idle }
  | (i,_) :: rest =>
      abortBatch full ((e.mark i .error).emit (full (e.seq i).requestId) (e.seq i).requestId) rest

def updateAfterPrefill (e : Engine V) (i : SeqId) : Engine V :=
  let e' := e.modify i fun q => { q with cachedLen := q.inputIds.length }
  { e' with
    radix := e'.radix.insertOrUpdate (e.seq i).inputIds (e.seq i).kvState (e.seq i).blockTable
      (e.seq i).lastLogits }

def applyPost (e : Engine V) (i : SeqId) (p : Post) (full : Bool) : Engine V :=
  let e' := e.modify i fun q => { q with outputIds := p.outputIds }
  (match p.reason with
  | some reason => e'.mark i reason
  | none => e').emit full (e.seq i).requestId

def postOne (e : Engine V) (i : SeqId) (tok : Option Token) (pre cancelled : Bool) (prev : Text)
    (full : Bool) : Engine V :=
  match tok with
  | none => e
  | some t =>
      if (e.seq i).finished then e
      else if cancelled then (e.mark i .cancelled).emit full (e.seq i).requestId
      else
        let e₁ := if pre then e.updateAfterPrefill i else e
        let e₂ := e₁.modify i fun q => { q with outputIds := q.outputIds ++ [t] }
        e₂.applyPost i (postToken cfg.tk (e₂.seq i) t prev) full

def leaveBatch (e : Engine V) (batch : List (SeqId × Bool)) (results : SeqId → Option Token) :
    Engine V :=
  let posts := { e with pc := .posting (batch.map fun b => (b.1,results b.1,b.2)) }
  match batch with
  | [(i,false)] =>
      match results i with
      | some first =>
          if 1 < cfg.burst ∧ ¬ (e.seq i).finished then
            let extra := min ((e.seq i).maxTokens-(e.seq i).outputIds.length-1) (cfg.burst-1)
            { e.modify i (fun q => { q with outputIds := q.outputIds ++ [first] }) with
              pc := .bursting i (if 0 < extra then [.burst i extra] else []) [first] }
          else posts
      | none => posts
  | _ => posts

/-- One step; `none` when the event is not enabled where the loop thread is. -/
def step (e : Engine V) : Event → Option (Engine V)
  | .addRequest r =>
      match e.pc with
      | .idle => e.addRequest cfg r
      | _ => none
  | .cancel r => some (e.cancelRequest r)
  | .step =>
      match e.pc with
      | .idle =>
          let (sched,batch) := e.sched.step cfg.sched
          some { e with sched := sched, pc := if batch = [] then .idle else .stepped batch }
      | _ => none
  | .check =>
      match e.pc with
      | .stepped batch =>
          some { e with pc := .inBatch batch (runBatch cfg e.sched batch) (fun _ => none) }
      | _ => none
  | .exec tok raises full =>
      match e.pc with
      | .inBatch batch (op :: rest) results =>
          match execOp cfg e rest tok raises op with
          | (e',true,todo) =>
              some { e' with
                pc := .inBatch batch todo (match Op.result op with
                  | some i => Function.update results i (some tok)
                  | none => results) }
          | (e',false,_) => some (abortBatch full e' batch)
      | .bursting i (op :: rest) toks =>
          match execOp cfg e rest tok raises op with
          | (e',true,todo) =>
              some { e' with
                pc := .bursting i todo (match op with
                  | .commitBurst _ => toks ++ [tok]
                  | _ => toks) }
          | (e',false,_) => some { e' with pc := .idle }
      | _ => none
  | .finishBatch =>
      match e.pc with
      | .inBatch batch [] results => some (leaveBatch cfg e batch results)
      | _ => none
  | .post cancelled prev full =>
      match e.pc with
      | .posting ((i,tok,pre) :: rest) =>
          some { postOne cfg e i tok pre cancelled prev full with pc := .posting rest }
      | .posting [] => some { e with sched := e.sched.dropFinished, pc := .idle }
      | _ => none
  | .finishBurst prev full =>
      match e.pc with
      | .bursting i [] toks =>
          let e' := e.applyPost i (postBurst cfg.tk cfg.eos (e.seq i) toks prev) full
          some { e' with sched := e'.sched.dropFinished, pc := .idle }
      | _ => none

end Calls

end Engine

end SglangLite.Paged
