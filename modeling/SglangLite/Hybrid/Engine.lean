import SglangLite.Transition
import SglangLite.Hybrid.PrefixCache
import SglangLite.Paged.Engine

set_option autoImplicit false

namespace SglangLite.Hybrid
open Kv Sched Text

/-- What is fixed during a run. `dual` tells whether the packed pools are
allocated, `paged` whether rows of `kv_cache` go to the restore pages, and
`append` is `SGLANG_LITE_V4_DUAL_APPEND`. -/
structure Config where
  cache : CacheConfig
  sched : SchedConfig
  burst : Nat
  eos : Option Token
  tk : Tokenizer
  maxEntries : Nat := 64
  dual : Bool := true
  paged : Bool := true
  append : Bool := true

/-- The attributes that the hybrid runner keeps on a sequence. -/
structure V4Seq where
  handle : Option DualPoolHandle := none
  entry : Option V4PrefixEntry := none
  pendingRestore : Bool := false
  slotPrepared : Bool := false
  needStage : Bool := false
  pagePrimary : Bool := false

instance : Inhabited V4Seq := ⟨{}⟩

/-- The calls of the runner, one after the other. A call with a slot works on
that batch row. -/
inductive Op where
  | restore (i : SeqId) (slot : Nat)
  | stage (i : SeqId) (slot : Nat) (always : Bool)
  | forward (start : Nat) (ins : List (SeqId × List Token))
  | sample (i : SeqId)
  | prefilled (i : SeqId) (n : Nat)
  | decoded (i : SeqId)
  | save (i : SeqId) (slot : Nat)
  | append (i : SeqId) (slot : Nat)
  | burst (i : SeqId) (n : Nat)
  | greedy (i : SeqId) (n : Nat)
  | single (i : SeqId) (n : Nat)
  | advance (i : SeqId)
  | output (i : SeqId)
  deriving DecidableEq, Repr

def Op.result : Op → Option SeqId
  | .sample i => some i
  | .prefilled i _ => some i
  | .decoded i => some i
  | _ => none

/-- Where the loop thread is. A burst remembers how long the output was when
it began. -/
inductive Pc where
  | idle
  | stepped (batch : List (SeqId × Bool))
  | inBatch (batch : List (SeqId × Bool)) (todo : List Op) (results : SeqId → Option Token)
  | posting (todo : List (SeqId × Option Token × Bool))
  | bursting (i : SeqId) (before : Nat) (todo : List Op) (toks : List Token)

/-- A delta queue at the moment of a call of `_emit`. -/
inductive Delta where
  | gone
  | room
  | full
  deriving DecidableEq, Repr

/-- A member of a call of `_model_forward_v4`: its row, what the row held, and
the tokens of the sequence. -/
structure ForwardCall where
  seq : SeqId
  slot : Nat
  start : Nat
  content : Row
  tokens : List Token

/-- The engine. `last` records for every row which sequence last used it and up
to which position, unless that sequence has moved to another row, and `calls`
the forwards so far. -/
structure Engine where
  sched : Scheduler := {}
  radix : PagePool := .empty
  cache : List V4PrefixEntry := []
  v4 : List V4Seq := []
  rows : Nat → Row := fun _ => {}
  pc : Pc := .idle
  last : Nat → Option (SeqId × Nat) := fun _ => none
  calls : List ForwardCall := []

/-- The steps of the loop thread and of the HTTP side. What the environment
decides is a label: the sampled token, whether a call raises, the delta
queues, whether the id is in `_cancelled`, and the `_prev_text`. A request that
`_admit_pending` refuses only gets its last frame. -/
inductive Event where
  | addRequest (r : Request)
  | reject (r : RequestId) (d : Delta)
  | cancel (r : RequestId) (d : Delta)
  | timeout (r : RequestId) (d : Delta)
  | step
  | check
  | exec (tok : Token) (raises : Bool) (ds : RequestId → Delta)
  | finishBatch
  | post (cancelled : Bool) (prev : Text) (d : Delta)
  | finishBurst (prev : Text) (d : Delta)

namespace Engine

def seq (e : Engine) (i : SeqId) : Sequence := e.sched.seq i

def v4Seq (e : Engine) (i : SeqId) : V4Seq := e.v4.getD i default

def modify (e : Engine) (i : SeqId) (f : Sequence → Sequence) : Engine :=
  { e with sched := e.sched.modify i f }

/-- The output of sequence `i` is replaced. A row in which the sequence has gone
beyond what is left of it is nobody's afterwards. -/
def setOutput (e : Engine) (i : SeqId) (out : List Token) : Engine :=
  { e.modify i fun q => { q with outputIds := out } with
    last := fun b => (e.last b).filter fun u =>
      decide (u.1 ≠ i ∨ u.2 ≤ ((e.seq i).inputIds ++ out).length ∧
        ((e.seq i).inputIds ++ out).take u.2 = (e.seq i).tokens.take u.2) }

def attach (e : Engine) (i : SeqId) (f : V4Seq → V4Seq) : Engine :=
  { e with v4 := e.v4.modify i f }

def setRow (e : Engine) (slot : Nat) (row : Row) (use : Option (SeqId × Nat)) : Engine :=
  { e with
    rows := Function.update e.rows slot row
    last := fun b =>
      if b = slot then use
      else (e.last b).filter fun u => decide (use.map Prod.fst ≠ some u.1) }

section Rows

variable (cfg : Config)

/-- The pages of a prefix hit from which `kv_cache` is restored. -/
def restorePages (q : V4Seq) : Option DualPoolHandle :=
  match q.handle with
  | some h => if cfg.paged ∧ h.swaBlocks ≠ [] then some h else none
  | none => none

/-- `_v4_ensure_restored`. -/
def ensureRestored (e : Engine) (i : SeqId) (slot : Nat) : Engine :=
  let q := e.v4Seq i
  if q.pendingRestore then
    let e₁ := e.attach i fun q => { q with pendingRestore := false }
    match q.entry with
    | none => e₁
    | some en =>
        match restorePages cfg q with
        | some h =>
            let n := if en.dualPoolTokens ≠ 0 then en.dualPoolTokens
              else if h.nTokens ≠ 0 then h.nTokens else (e.seq i).cachedLen
            (e₁.setRow slot { kv := ((e.rows slot).withKv n h.kv).kv, state := en.row.state }
              (some (i,en.tokenIds.length))).attach i fun q =>
                { q with slotPrepared := true, pagePrimary := true, needStage := true }
        | none =>
            (e₁.setRow slot en.row (some (i,en.tokenIds.length))).attach i fun q =>
              { q with slotPrepared := true }
  else if (e.seq i).cachedLen = 0 ∧ q.slotPrepared = false then
    (e.setRow slot {} (some (i,0))).attach i fun q => { q with slotPrepared := true }
  else e

/-- `_v4_stage_pages_before_forward`. A row that another sequence used last is
nobody's afterwards. -/
def stagePages (e : Engine) (i : SeqId) (slot : Nat) : Engine :=
  let q := e.v4Seq i
  if q.needStage then
    match restorePages cfg q with
    | none => e
    | some h =>
        let n := if h.nTokens ≠ 0 then h.nTokens else (e.seq i).cachedLen
        if n = 0 then e
        else
          (e.setRow slot ((e.rows slot).withKv n h.kv)
            ((e.last slot).filter fun u => decide (u.1 = i))).attach i fun q =>
              { q with needStage := false }
  else e

/-- `_model_forward_v4`: member `b` works on row `b`. -/
def forward (start : Nat) (ok : Bool) : Nat → List (SeqId × List Token) → Engine → Engine
  | _, [], e => e
  | b, (i,ts) :: ins, e =>
      forward start ok (b+1) ins
        { e.setRow b ((e.rows b).feed start ts) (if ok then some (i,start+ts.length) else none) with
          calls := e.calls ++ [⟨i,b,start,e.rows b,(e.seq i).tokens⟩] }

/-- `_v4_maybe_save_prefix`. -/
def savePrefix (e : Engine) (i : SeqId) (slot : Nat) (fails : Bool) : Engine :=
  let q := e.seq i
  if q.cachedLen ≠ q.inputIds.length then e
  else
    let row := e.rows slot
    let (c₁,written) := if cfg.dual then dualWrite cfg.cache e.radix row q.cachedLen fails
      else (e.radix,none)
    match written with
    | none =>
        let (c₂,es) := insert cfg.maxEntries c₁ e.cache
          { tokenIds := q.inputIds, lastLogits := q.lastLogits, row := row }
        { e with radix := c₂, cache := es }
    | some h =>
        let (c₂,es) := insert cfg.maxEntries c₁ e.cache
          { tokenIds := q.inputIds
            lastLogits := q.lastLogits
            row := if cfg.paged then { row with kv := h.kv } else row
            swaBlockIds := h.swaBlocks
            compBlockIds := h.compBlocks
            dualPoolTokens := h.nTokens
            dualPrimary := cfg.paged }
        ({ e with radix := c₂, cache := es }).attach i fun v =>
          { v with handle := some h, pagePrimary := v.pagePrimary || cfg.paged }

/-- `_v4_dual_append_decode`. -/
def dualAppend (e : Engine) (i : SeqId) (slot : Nat) (fails : Bool) : Engine :=
  match (e.v4Seq i).handle with
  | none => e
  | some h =>
      let n := (e.seq i).cachedLen
      if cfg.append ∧ cfg.dual ∧ cfg.paged ∧ n ≠ 0 then
        match ensureCapacity cfg.cache e.radix h n with
        | (c₁,h₁,ok) =>
            let h₂ := if ok ∧ ¬ fails then
                { h₁ with
                  nTokens := max h₁.nTokens n
                  kv := Function.update h₁.kv (n-1) ((e.rows slot).kv (n-1)) }
              else h₁
            ({ e with radix := c₁ }).attach i fun v => { v with handle := some h₂ }
      else e

end Rows

section Plan

variable (s : Scheduler)

def prepare (stage : Bool) (group : List SeqId) : List Op :=
  group.zipIdx.flatMap fun m =>
    .restore m.1 m.2 :: if stage then [.stage m.1 m.2 true] else []

def feedSteps (i : SeqId) (start : Nat) (ts : List Token) : List Op :=
  ts.zipIdx.flatMap fun m =>
    [.stage i 0 (decide (m.2 = 0)),.forward (start+m.2) [(i,[m.1])]]

def prefillOne (i : SeqId) : List Op :=
  let q := s.seq i
  let new := q.inputIds.drop q.cachedLen
  if new = [] then [.restore i 0,.sample i]
  else
    .restore i 0 ::
      (if 0 < q.cachedLen ∧ 1 < new.length then feedSteps i q.cachedLen new
      else (if 0 < q.cachedLen then [.stage i 0 true] else []) ++ [.forward q.cachedLen [(i,new)]]) ++
      [.prefilled i new.length,.save i 0]

/-- `_batch_prefill` of a group with one `cached_len`. -/
def batchPrefill (group : List SeqId) : List Op :=
  match group with
  | [] => []
  | i :: rest =>
      let past := (s.seq i).cachedLen
      let n := Scheduler.remainingPrompt (s.seq i)
      if rest.all fun j => Scheduler.remainingPrompt (s.seq j) = n then
        if n = 0 then group.zipIdx.flatMap fun m => [.restore m.1 m.2,.sample m.1]
        else if 0 < past ∧ 1 < n then group.flatMap (prefillOne s)
        else
          prepare (decide (0 < past)) group ++
            [.forward past (group.map fun j => (j,(s.seq j).inputIds.drop past))] ++
            group.zipIdx.flatMap fun m => [.prefilled m.1 n,.save m.1 m.2]
      else group.flatMap (prefillOne s)

/-- `_batch_decode` of a group with one `cached_len`. -/
def batchDecode (group : List SeqId) : List Op :=
  let pending := group.filter fun i => ¬ Paged.Engine.fromLogits (s.seq i)
  ((group.zipIdx).filter fun m => Paged.Engine.fromLogits (s.seq m.1)).flatMap
      (fun m => [.restore m.1 m.2,.sample m.1]) ++
    match pending with
    | [] => []
    | i :: _ =>
        prepare true pending ++
          [.forward (s.seq i).cachedLen
            (pending.map fun j => (j,Paged.Engine.lastToken (s.seq j)))] ++
          pending.zipIdx.flatMap fun m => [.decoded m.1,.append m.1 m.2]

/-- `run_batch`: the finished check and the classification, then the prefill
groups, then the decode groups. An exact hit is restored into row 0. -/
def runBatch (batch : List (SeqId × Bool)) : List Op :=
  let live := batch.filter fun b => ¬ (s.seq b.1).finished
  let exact := live.filter fun b => Paged.Engine.exactHit (s.seq b.1) b.2
  let rest := live.filter fun b => ¬ Paged.Engine.exactHit (s.seq b.1) b.2
  let isPrefill := fun b : SeqId × Bool =>
    b.2 && decide ((s.seq b.1).cachedLen < (s.seq b.1).inputIds.length)
  exact.flatMap (fun b => [.restore b.1 0,.sample b.1]) ++
    (Paged.Engine.groups s ((rest.filter fun b => isPrefill b).map Prod.fst)).flatMap
      (batchPrefill s) ++
    (Paged.Engine.groups s ((rest.filter fun b => ¬ isPrefill b).map Prod.fst)).flatMap
      (batchDecode s)

end Plan

section Calls

variable (cfg : Config)

/-- `mark_finished`. -/
def mark (e : Engine) (i : SeqId) (reason : FinishReason) : Engine :=
  { e with
    radix := e.radix.releaseBlocks (e.seq i).blockTable
    sched := e.sched.markFinished i reason }

/-- `Scheduler.cancel`. -/
def schedCancel (e : Engine) (r : RequestId) : Engine :=
  match e.sched.byRequest r with
  | none => e
  | some i => (e.modify i fun q => { q with cancelled := true }).mark i .cancelled

/-- `v4_release_seq`. -/
def releaseSeq (e : Engine) (i : SeqId) : Engine :=
  let e₁ := e.setRow 0 {} none
  let e₂ := match (e.v4Seq i).handle with
    | some h => { e₁ with radix := releaseHandle e₁.radix h }
    | none => e₁
  e₂.attach i fun q =>
    { q with
      handle := none
      entry := none
      pendingRestore := false
      slotPrepared := false
      pagePrimary := false }

/-- What `_emit` does besides the delivery: a full queue cancels the request,
and with the last frame the first sequence of that id which is still in the
queues of the scheduler is released. -/
def emit (e : Engine) (d : Delta) (r : RequestId) (final : Bool) : Engine :=
  let close := fun e : Engine =>
    if final then
      match (e.sched.running ++ e.sched.waiting).find? fun i => (e.seq i).requestId = r with
      | some i => e.releaseSeq i
      | none => e
    else e
  match d with
  | .gone => e
  | .room => close e
  | .full => close (e.schedCancel r)

/-- `EngineLoop.cancel`, and the branch of `_check_timeouts` for one request. -/
def cancelRequest (e : Engine) (r : RequestId) (d : Delta) : Engine :=
  (e.schedCancel r).emit d r true

/-- `v4_attach_dual_pool_from_entry`. -/
def attachDualPool (e : Engine) (i : SeqId) (en : V4PrefixEntry) : Engine :=
  match forkForHit e.radix en with
  | (_,none) => e
  | (c,some h) =>
      ({ e with radix := c }).attach i fun q =>
        { q with handle := some h, pagePrimary := q.pagePrimary || en.dualPrimary }

/-- `add_request` with the rest of `_admit_pending`; `submit` has refused an
empty prompt and a token limit of zero. -/
def addRequest (e : Engine) (r : Request) : Option Engine :=
  if r.inputIds = [] ∨ r.maxTokens = 0 then none else
  let (radix,_) := e.radix.matchPrefix cfg.cache r.inputIds
  let hit := matchEntry e.cache r.inputIds
  let len := match hit with
    | some en => en.tokenIds.length
    | none => 0
  let q : Sequence :=
    { r.sequence cfg.eos with
      cachedLen := len
      cacheHitTokens := len
      lastLogits := match hit with
        | some en => en.lastLogits
        | none => false }
  (e.sched.addRequest cfg.sched q).map fun sched =>
    let e₁ := { e with sched := sched, radix := radix, v4 := e.v4 ++ [{}] }
    match hit with
    | none => e₁
    | some en =>
        (e₁.attach e.sched.seqs.length fun v => { v with entry := some en, pendingRestore := true })
          |>.attachDualPool e.sched.seqs.length en

/-- A burst ends at the end-of-sequence token; the tight greedy path does not
for `ignore_eos` requests. -/
def burstStops (q : Sequence) (tok : Token) : Bool :=
  decide (cfg.eos = some tok) && (!q.ignoreEos || !q.greedy)

def execOp (e : Engine) (rest : List Op) (tok : Token) (raises : Bool) : Op → Engine × Bool × List Op
  | .restore i slot => (ensureRestored cfg e i slot,true,rest)
  | .stage i slot always =>
      (if always || (e.v4Seq i).pagePrimary then stagePages cfg e i slot else e,true,rest)
  | .forward start ins => (forward start (!raises) 0 ins e,!raises,rest)
  | .sample i =>
      if (e.seq i).lastLogits then
        (e.modify i fun q => { q with cachedLen := q.inputIds.length },!raises,rest)
      else (e,false,rest)
  | .prefilled i n =>
      (e.modify i fun q => { q with cachedLen := q.cachedLen+n, lastLogits := true, kvState := false },
        !raises,rest)
  | .decoded i =>
      (e.modify i fun q => { q with cachedLen := q.cachedLen+1, kvState := false },!raises,rest)
  | .save i slot => (savePrefix cfg e i slot raises,true,rest)
  | .append i slot => (dualAppend cfg e i slot raises,true,rest)
  | .burst i n =>
      (e,true,(if (e.seq i).greedy then [.restore i 0,.stage i 0 true,.greedy i n]
        else [.single i n]) ++ rest)
  | .greedy _ 0 => (e,true,rest)
  | .greedy i (n+1) =>
      (e,true,[.forward (e.seq i).cachedLen [(i,Paged.Engine.lastToken (e.seq i))],
        .advance i,.output i,.greedy i n] ++ rest)
  | .single _ 0 => (e,true,rest)
  | .single i (n+1) =>
      if (e.seq i).finished then (e,true,rest)
      else
        (e,true,[.restore i 0,.stage i 0 true,
          .forward (e.seq i).cachedLen [(i,Paged.Engine.lastToken (e.seq i))],
          .advance i,.append i 0,.output i,.single i n] ++ rest)
  | .advance i =>
      (e.modify i fun q => { q with cachedLen := q.cachedLen+1, kvState := false },true,rest)
  | .output i =>
      (e.modify i fun q =>
        { q with outputIds := if raises then q.outputIds else q.outputIds ++ [tok] },
        !raises,if burstStops cfg (e.seq i) tok then [] else rest)

/-- The `except` branch of `pump_once`. -/
def abortBatch (ds : RequestId → Delta) (e : Engine) : List (SeqId × Bool) → Engine
  | [] => { e with pc := .idle }
  | (i,_) :: rest =>
      abortBatch ds ((e.mark i .error).emit (ds (e.seq i).requestId) (e.seq i).requestId true) rest

/-- An exception leaves `run_decode_burst`. The path without a check for the
end-of-sequence token has not yet put its tokens into `output_ids`. -/
def leaveBurst (e : Engine) (i : SeqId) (before : Nat) : Engine :=
  let q := e.seq i
  let e₁ := if q.greedy ∧ (q.ignoreEos ∨ cfg.eos = none) then
      e.setOutput i (q.outputIds.take before)
    else e
  { e₁ with pc := .idle }

def applyPost (e : Engine) (i : SeqId) (p : Post) (d : Delta) : Engine :=
  let e₁ := e.setOutput i p.outputIds
  (match p.reason with
  | some reason => e₁.mark i reason
  | none => e₁).emit d (e.seq i).requestId p.finished

def postOne (e : Engine) (i : SeqId) (tok : Option Token) (pre cancelled : Bool) (prev : Text)
    (d : Delta) : Engine :=
  match tok with
  | none => e
  | some t =>
      if (e.seq i).finished then e
      else if cancelled then (e.mark i .cancelled).emit d (e.seq i).requestId true
      else
        let e₁ := if pre then
            e.modify i fun q => { q with cachedLen := q.inputIds.length, kvState := false }
          else e
        let e₂ := e₁.modify i fun q => { q with outputIds := q.outputIds ++ [t] }
        e₂.applyPost i (postToken cfg.tk (e₂.seq i) t prev) d

def leaveBatch (e : Engine) (batch : List (SeqId × Bool)) (results : SeqId → Option Token) : Engine :=
  let posts := { e with pc := .posting (batch.map fun b => (b.1,results b.1,b.2)) }
  match batch with
  | [(i,false)] =>
      match results i with
      | some first =>
          if 1 < cfg.burst ∧ ¬ (e.seq i).finished then
            let extra := min ((e.seq i).maxTokens-(e.seq i).outputIds.length-1) (cfg.burst-1)
            { e.modify i (fun q => { q with outputIds := q.outputIds ++ [first] }) with
              pc := .bursting i ((e.seq i).outputIds.length+1)
                (if 0 < extra then [.burst i extra] else []) [first] }
          else posts
      | none => posts
  | _ => posts

/-- One step; `none` when the event is not enabled where the loop thread is. -/
def step (e : Engine) : Event → Option Engine
  | .addRequest r =>
      match e.pc with
      | .idle => e.addRequest cfg r
      | _ => none
  | .reject r d =>
      match e.pc with
      | .idle => some (e.emit d r true)
      | _ => none
  | .cancel r d => some (e.cancelRequest r d)
  | .timeout r d =>
      match e.pc with
      | .idle => some (e.cancelRequest r d)
      | _ => none
  | .step =>
      match e.pc with
      | .idle =>
          let (sched,batch) := e.sched.step cfg.sched
          some { e with sched := sched, pc := if batch = [] then .idle else .stepped batch }
      | _ => none
  | .check =>
      match e.pc with
      | .stepped batch =>
          some { e with pc := .inBatch batch (runBatch e.sched batch) (fun _ => none) }
      | _ => none
  | .exec tok raises ds =>
      match e.pc with
      | .inBatch batch (op :: rest) results =>
          match execOp cfg e rest tok raises op with
          | (e',true,todo) =>
              some { e' with
                pc := .inBatch batch todo (match Op.result op with
                  | some i => Function.update results i (some tok)
                  | none => results) }
          | (e',false,_) => some (abortBatch ds e' batch)
      | .bursting i before (op :: rest) toks =>
          match execOp cfg e rest tok raises op with
          | (e',true,todo) =>
              some { e' with
                pc := .bursting i before todo (match op with
                  | .output _ => toks ++ [tok]
                  | _ => toks) }
          | (e',false,_) => some (leaveBurst cfg e' i before)
      | _ => none
  | .finishBatch =>
      match e.pc with
      | .inBatch batch [] results => some (leaveBatch cfg e batch results)
      | _ => none
  | .post cancelled prev d =>
      match e.pc with
      | .posting ((i,tok,pre) :: rest) =>
          some { postOne cfg e i tok pre cancelled prev d with pc := .posting rest }
      | .posting [] => some { e with sched := e.sched.dropFinished, pc := .idle }
      | _ => none
  | .finishBurst prev d =>
      match e.pc with
      | .bursting i _ [] toks =>
          let e' := e.applyPost i (postBurst cfg.tk cfg.eos (e.seq i) toks prev) d
          some { e' with sched := e'.sched.dropFinished, pc := .idle }
      | _ => none

end Calls

end Engine

end SglangLite.Hybrid
