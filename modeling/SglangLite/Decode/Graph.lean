import SglangLite.Decode.Body
import SglangLite.Transition
import Mathlib.Logic.Function.Basic

set_option autoImplicit false

namespace SglangLite.Decode
open Kv

abbrev Addr := Nat

/-- Where the tensors of one element go. The allocator may hand out the
address of a tensor that nobody holds any more. -/
structure Allocator where
  pick : Nat → List Addr → Addr
  fresh : ∀ n live, pick n live ∉ live

/-- What does not change over a session. `indexed` says that `self.device`
names the index, as `cuda:0` does and `cuda` does not: the device of a tensor
always has one. `native` is `_paged_native is not None`. -/
structure Setup where
  cfg : CacheConfig
  alloc : Allocator
  indexed : Bool
  native : Bool

/-- What a captured graph has recorded: the addresses of the input tensors and
the static buffers of one generation. -/
structure Recorded where
  tok : Addr
  pos : Addr
  gen : Nat
  deriving DecidableEq

/-- `PagedDecodeCudaGraph`; `captured` is `graph.isSome`. -/
structure PagedDecodeCudaGraph where
  graph : Option Recorded := none
  captureMaxPages : Int := -1
  captureBufGen : Int := -1
  warmupDone : Nat := 0
  disabled : Bool := false
  deriving DecidableEq

namespace PagedDecodeCudaGraph

def warmupNeed : Nat := 2

def reset (g : PagedDecodeCudaGraph) : PagedDecodeCudaGraph :=
  { g with graph := none, captureMaxPages := -1, captureBufGen := -1, warmupDone := 0 }

def outdated (g : PagedDecodeCudaGraph) (npages maxPages bufGen : Int) : Prop :=
  (g.captureMaxPages < npages ∧ 0 < g.captureMaxPages) ∨
    (0 ≤ bufGen ∧ 0 ≤ g.captureBufGen ∧ bufGen ≠ g.captureBufGen) ∨
    (0 < maxPages ∧ 0 < g.captureMaxPages ∧ maxPages ≠ g.captureMaxPages)

instance (g : PagedDecodeCudaGraph) (npages maxPages bufGen : Int) :
    Decidable (g.outdated npages maxPages bufGen) :=
  inferInstanceAs (Decidable ((g.captureMaxPages < npages ∧ 0 < g.captureMaxPages) ∨
    (0 ≤ bufGen ∧ 0 ≤ g.captureBufGen ∧ bufGen ≠ g.captureBufGen) ∨
    (0 < maxPages ∧ 0 < g.captureMaxPages ∧ maxPages ≠ g.captureMaxPages)))

inductive Phase where
  | eager
  | capture
  | replay (r : Recorded)

def phase (g : PagedDecodeCudaGraph) (npages maxPages bufGen : Int) : PagedDecodeCudaGraph × Phase :=
  if g.disabled then (g,.eager)
  else
    let g := if g.graph.isSome ∧ g.outdated npages maxPages bufGen then g.reset else g
    match g.graph with
    | some r => (g,.replay r)
    | none =>
        if g.warmupDone < warmupNeed then ({ g with warmupDone := g.warmupDone+1 },.eager)
        else (g,.capture)

end PagedDecodeCudaGraph

/-- The state of the runner that decode steps read and write. `mem` has the
tensors of one element, `bufs` are `_buf` and `_pos` of `DecodeInputBuffer`,
`shelf` has the static buffers of every generation, and `next` is the token
that a running burst feeds next. -/
structure Runner (R : Type) where
  backend : Backend := {}
  mem : Addr → Int := fun _ => 0
  clock : Nat := 0
  bufs : Option (Addr × Addr) := none
  shelf : Nat → Option StaticBuffers := fun _ => none
  graph : PagedDecodeCudaGraph := {}
  cells : Cells R
  next : Option Token := none

/-- What the surroundings decide in a step: the free-memory ceiling, whether
the capture raises, and what the output tensor of a graph holds before the
graph has run. -/
structure Env (L : Type) where
  ceiling : Nat := 8
  captureFails : Bool := false
  unwritten : L

namespace Runner

variable {H R L : Type} (net : Net H R L) (su : Setup) (s : Runner R)

def live : List Addr :=
  match s.bufs with
  | some (buf,pos) => [buf,pos]
  | none => []

/-- New input buffers; `_buf` is bound before `_pos` is allocated. -/
def renew (held : List Addr) : Runner R × Addr × Addr :=
  let buf := su.alloc.pick s.clock (held ++ s.live)
  let pos := su.alloc.pick (s.clock+1) (buf :: held ++ s.live.drop 1)
  ({ s with
      mem := Function.update (Function.update s.mem buf 0) pos 0
      clock := s.clock+2
      bufs := some (buf,pos) },buf,pos)

/-- `_ensure`: the buffers are kept when their device equals `self.device`. -/
def ensure (held : List Addr) : Runner R × Addr × Addr :=
  match s.bufs with
  | some (buf,pos) => if su.indexed then (s,buf,pos) else s.renew su held
  | none => s.renew su held

def tokenBuf (held : List Addr) : Runner R × Addr :=
  let (s,buf,_) := s.ensure su held
  (s,buf)

/-- `set_token`, and `set_token_tensor` with the value of its tensor. -/
def setToken (tok : Token) (held : List Addr) : Runner R × Addr :=
  let (s,buf,_) := s.ensure su held
  ({ s with mem := Function.update s.mem buf tok },buf)

def setPosition (pos : Nat) (held : List Addr) : Runner R × Addr :=
  let (s,_,p) := s.ensure su held
  ({ s with mem := Function.update s.mem p pos },p)

/-- `torch.tensor([[tok]])`. -/
def tensor (tok : Token) : Runner R × Addr :=
  let a := su.alloc.pick s.clock s.live
  ({ s with mem := Function.update s.mem a tok, clock := s.clock+1 },a)

def onBackend (b : Backend) : Runner R :=
  { s with
    backend := b
    shelf := match b.buffers with
      | some st => Function.update s.shelf b.staticBufGen (some st)
      | none => s.shelf }

/-- The part of `_model_forward_paged` before the body for one token of one
sequence. -/
def plan (input : Addr) (pos : Nat) (table : List BlockId) (ceiling : Nat) :
    Runner R × Addr × Except PyError Unit :=
  let (s,p) := s.setPosition su pos [input]
  let (b,r) := s.backend.beginForward (single su.cfg pos table) ceiling
  (s.onBackend b,p,r)

def leave : Runner R := { s with backend := s.backend.endForward }

/-- The native body leaves the greedy token in its input tensor. -/
def writeNext (input : Addr) (out : Output R L) : Runner R :=
  match su.native, out.logits with
  | true, l :: _ => { s with mem := Function.update s.mem input (net.argmax l) }
  | _, _ => s

def eager (input p : Addr) (pos : Nat) (table : List BlockId) : Runner R × Option (Output R L) :=
  match s.backend.metadata, s.backend.appendOneLayer su.cfg table pos 1 with
  | some m, .ok ap =>
      let out := net.body su.cfg [Row.read su.cfg (s.mem input) (s.mem p) m 0 ap] s.cells
      (({ s with cells := out.cells }.writeNext net su input out).leave,some out)
  | _, _ => (s.leave,none)

def replay (r : Recorded) : Runner R × Option (Output R L) :=
  match s.shelf r.gen with
  | some st =>
      let out := net.body su.cfg
        [Row.read su.cfg (s.mem r.tok) (s.mem r.pos) st.pageMetadata 0 st.appendMetadata] s.cells
      (({ s with cells := out.cells }.writeNext net su r.tok out).leave,some out)
  | none => (s.leave,none)

def phase (pos : Nat) : PagedDecodeCudaGraph × PagedDecodeCudaGraph.Phase :=
  s.graph.phase (su.cfg.pages (pos+1)) s.backend.maxPagesStatic s.backend.staticBufGen

/-- `_model_forward_paged` for one token of one sequence. Capturing records
the body and runs none of it. -/
def modelForwardPaged (input : Addr) (pos : Nat) (table : List BlockId) (env : Env L) :
    Runner R × Option (Output R L) :=
  match s.plan su input pos table env.ceiling with
  | (s,_,.error _) => (s,none)
  | (s,p,.ok ()) =>
      match s.phase su pos with
      | (g,.eager) => { s with graph := g }.eager net su input p pos table
      | (g,.replay r) => { s with graph := g }.replay net su r
      | (g,.capture) =>
          if env.captureFails then
            { s with graph := { g with disabled := true }.reset }.eager net su input p pos table
          else
            ({ s with
                graph := { g with
                  graph := some ⟨input,p,s.backend.staticBufGen⟩
                  captureMaxPages := if 0 < s.backend.maxPagesStatic then s.backend.maxPagesStatic
                    else su.cfg.pages (pos+1)
                  captureBufGen := s.backend.staticBufGen } }.leave,
              some ⟨[env.unwritten],s.cells,[]⟩)

/-- The body for two or more sequences of one length, which takes no graph. -/
def batched (pos : Nat) (members : List (Token × List BlockId)) (env : Env L) :
    Runner R × Option (Output R L) :=
  let tables := members.map Prod.snd
  let (b,r) := s.backend.beginForward ⟨su.cfg,tables,List.replicate members.length pos,
    List.replicate members.length 1,true⟩ env.ceiling
  let s := s.onBackend b
  match r, b.metadata, tables.mapM fun t => b.appendOneLayer su.cfg t pos 1 with
  | .error _, _, _ => (s,none)
  | .ok (), some m, .ok aps =>
      let rows := ((members.map Prod.fst).zip aps).zipIdx.map fun ((tok,ap),b) =>
        Row.read su.cfg tok pos m b ap
      let out := net.body su.cfg rows s.cells
      ({ s with cells := out.cells }.leave,some out)
  | .ok (), _, _ => (s.leave,none)

end Runner

/-- The decode steps, and what happens between them: page writes of prefills
and of copies, calls of the backend that are no such steps, and values that
others put into addresses that the runner does not hold. -/
inductive Event (R L : Type) where
  | batchDecode (pos : Nat) (members : List (Token × List BlockId)) (env : Env L)
  | decodeOne (tok : Token) (pos : Nat) (table : List BlockId) (env : Env L)
  | burst (tok : Token)
  | burstStep (pos : Nat) (table : List BlockId) (env : Env L)
  | pages (f : Cells R → Cells R)
  | call (c : Call)
  | reuse (a : Addr) (v : Int)

/-- A call of `_model_forward_paged` with one token of one sequence: the state
and the input tensor, and the sequence's own token and page table. -/
structure Fed (R L : Type) where
  state : Runner R
  input : Addr
  token : Token
  pos : Nat
  table : List BlockId
  env : Env L

namespace Runner

variable {H R L : Type} (net : Net H R L) (su : Setup) (s : Runner R)

def feed : Event R L → Option (Fed R L)
  | .batchDecode pos [(tok,table)] env =>
      let (t,a) := s.tensor su tok
      some ⟨t,a,tok,pos,table,env⟩
  | .decodeOne tok pos table env =>
      let (t,a) := s.setToken su tok []
      some ⟨t,a,tok,pos,table,env⟩
  | .burstStep pos table env =>
      match s.next with
      | none => none
      | some tok =>
          let (t,a) := s.tokenBuf su []
          some ⟨(t.setPosition su pos [a]).1,a,tok,pos,table,env⟩
  | _ => none

def forwarded (f : Fed R L) : Runner R × Option (Output R L) :=
  f.state.modelForwardPaged net su f.input f.pos f.table f.env

def act (e : Event R L) : Option (Runner R × Option (Output R L)) :=
  match e with
  | .batchDecode pos members env =>
      match s.feed su e with
      | some f =>
          let (t,out) := forwarded net su f
          some ({ t with next := none },out)
      | none =>
          if members = [] then some (s,none)
          else
            let (t,out) := s.batched net su pos members env
            some ({ t with next := none },out)
  | .decodeOne .. => (s.feed su e).map fun f =>
      let (t,out) := forwarded net su f
      ({ t with next := none },out)
  | .burst tok => some ({ (s.setToken su tok []).1 with next := some tok },none)
  | .burstStep .. => (s.feed su e).map fun f =>
      match forwarded net su f with
      | (t,some out) =>
          match out.logits with
          | l :: _ =>
              ({ (t.setToken su (net.argmax l) [f.input]).1 with next := some (net.argmax l) },some out)
          | [] => ({ t with next := none },some out)
      | (t,none) => ({ t with next := none },none)
  | .pages f => some ({ s with cells := f s.cells },none)
  | .call c => some (s.onBackend (s.backend.call c),none)
  | .reuse a v =>
      if a ∈ s.live then none else some ({ s with mem := Function.update s.mem a v },none)

def step (e : Event R L) : Option (Runner R) := (s.act net su e).map Prod.fst

def own : Event R L → List Row
  | .batchDecode pos members _ => members.map fun m => Row.own su.cfg m.1 pos m.2
  | .decodeOne tok pos table _ => [Row.own su.cfg tok pos table]
  | .burstStep pos table _ => s.next.toList.map fun tok => Row.own su.cfg tok pos table
  | _ => []

/-- The step has returned what the body returns on the step's own rows, and has
appended once in every layer for each of them. -/
structure Faithful (e : Event R L) (s' : Runner R) (o : Output R L) : Prop where
  out : o = net.body su.cfg (s.own su e) s.cells
  cells : s'.cells = o.cells
  once : o.writes.map Write.place = (List.range net.layers.length).flatMap fun l =>
    (s.own su e).filterMap fun r => r.slot.map fun c => (l,c.1,c.2)
  placed : ∀ r ∈ s.own su e, r.slot.isSome

def Right (e : Event R L) : Prop :=
  ∀ s' o, s.act net su e = some (s',some o) → s.Faithful net su e s' o

/-- The input tensor of a burst step is the one that the burst has filled. -/
def Kept : Event R L → Prop
  | .burstStep .. => su.indexed = true ∨ s.next = some 0
  | _ => True

/-- No graph is captured in the step, and a graph that is replayed has recorded
tensors that hold the step's own token and position. -/
def Fits (e : Event R L) : Prop :=
  ∀ f, s.feed su e = some f →
    match f.state.plan su f.input f.pos f.table f.env.ceiling with
    | (_,_,.error _) => True
    | (t,_,.ok ()) =>
        match (t.phase su f.pos).2 with
        | .eager => s.Kept su e
        | .capture => f.env.captureFails = true ∧ s.Kept su e
        | .replay r => t.mem r.tok = f.token ∧ t.mem r.pos = f.pos

end Runner

end SglangLite.Decode
