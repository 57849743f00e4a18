import SglangLite.Kv.Stores

set_option autoImplicit false

namespace SglangLite.Decode
open Kv

/-- The part of `PagedAttnContext` that the page metadata depends on; `cache`
is the geometry of `ctx.radix`. -/
structure PagedAttnContext where
  cache : CacheConfig
  blockTables : List (List BlockId)
  cachedLens : List Nat
  qLens : List Nat
  isDecode : Bool

/-- `[c + q for c, q in zip(ctx.cached_lens, ctx.q_lens)]`. -/
def PagedAttnContext.totalLens (ctx : PagedAttnContext) : List Nat :=
  List.zipWith (· + ·) ctx.cachedLens ctx.qLens

theorem PagedAttnContext.totalLens_single (ctx : PagedAttnContext) {start : Nat} {lens : List Nat}
    (hq : ctx.qLens = [1]) (hc : ctx.cachedLens = start :: lens) : ctx.totalLens = [start+1] := by
  cases lens <;> simp [totalLens,hq,hc]

/-- Page indices, `indptr` and `last_page_len`. -/
structure PageMetadata where
  indices : List BlockId
  indptr : List Nat
  lastPageLen : List Nat
  deriving DecidableEq, Repr

/-- What `append_paged_kv_cache` is given besides the new keys and values. -/
structure AppendMetadata where
  batchIndices : List Nat
  positions : List Nat
  kvIndices : List BlockId
  kvIndptr : List Nat
  kvLast : List Nat
  deriving DecidableEq, Repr

/-- The tensors that `_ensure_decode_static` allocates; those of one and of two
elements are values and pairs. -/
structure StaticBuffers where
  batchIndices : Nat
  positions : Nat
  kvIndices : List BlockId
  kvIndptr : Nat × Nat
  kvLast : Nat
  pageIndices : List BlockId
  pageIndptr : Nat × Nat
  lastPageLen : Nat
  deriving DecidableEq, Repr

/-- What `_page_indices`, `_page_indptr` and `_last_page_len` refer to. -/
inductive Active where
  | none
  | view (npages : Nat)
  | built (m : PageMetadata)
  deriving DecidableEq, Repr

inductive Wrapper where
  | decode
  | cg
  deriving DecidableEq, Repr

/-- The fields of `FlashInferBackend` that `begin_forward` reads and sets. -/
structure Backend where
  decodeFast : Bool := false
  maxPagesStatic : Nat := 0
  staticBufGen : Nat := 0
  buffers : Option StaticBuffers := none
  stNPages : Nat := 0
  stAppendStart : Nat := 0
  stPagesHost : List BlockId := []
  cgWrapperGen : Option Nat := none
  active : Active := .none
  qoIndptr : Option (List Nat) := none
  activeDecodeWrapper : Wrapper := .decode
  attnCtx : Option PagedAttnContext := none

namespace Backend

def shortTable (need slen : Nat) : PyError :=
  ⟨.runtimeError,"block_table too short: need " ++ toString need ++ " pages for seq_len="
    ++ toString slen⟩

/-- `page_size if slen % page_size == 0 else slen % page_size`. -/
def lastLen (cfg : CacheConfig) (slen : Nat) : Nat :=
  if slen%cfg.blockSize = 0 then cfg.blockSize else slen%cfg.blockSize

def pageMetadataLoop (cfg : CacheConfig) :
    List (List BlockId × Nat) → PageMetadata → Except PyError PageMetadata
  | [], m => .ok m
  | (bt,slen) :: rest, m =>
      if slen = 0 then .error ⟨.runtimeError,"paged attention requires seq_len > 0"⟩
      else if bt.length < cfg.pages slen then .error (shortTable (cfg.pages slen) slen)
      else
        let indices := m.indices ++ bt.take (cfg.pages slen)
        pageMetadataLoop cfg rest
          ⟨indices,m.indptr ++ [indices.length],m.lastPageLen ++ [lastLen cfg slen]⟩

def pageMetadata (cfg : CacheConfig) (blockTables : List (List BlockId)) (seqLens : List Nat) :
    Except PyError PageMetadata :=
  pageMetadataLoop cfg (blockTables.zip seqLens) ⟨[],[0],[]⟩

/-- `while cap < need: cap *= 2`. -/
def doubleUntil (need : Nat) : Nat → Nat → Nat
  | 0, cap => cap
  | fuel+1, cap => if cap < need then doubleUntil need fuel (cap*2) else cap

def zeros (cap : Nat) : StaticBuffers where
  batchIndices := 0
  positions := 0
  kvIndices := List.replicate cap 0
  kvIndptr := (0,0)
  kvLast := 0
  pageIndices := List.replicate cap 0
  pageIndptr := (0,0)
  lastPageLen := 0

/-- `_ensure_decode_static`; `ceiling` is what `_default_static_pages_ceiling`
returns at this call. -/
def ensureDecodeStatic (s : Backend) (maxPages ceiling : Nat) : Backend :=
  if s.buffers ≠ none ∧ maxPages ≤ s.maxPagesStatic then s
  else
    let need := max maxPages ceiling
    let cap := doubleUntil need need 8
    { s with
      maxPagesStatic := cap
      staticBufGen := s.staticBufGen+1
      stPagesHost := []
      buffers := some (zeros cap) }

def ensureDecodeCgWrapper (s : Backend) : Backend × Except PyError Unit :=
  if s.cgWrapperGen = some s.staticBufGen ∧ s.buffers ≠ none then (s,.ok ())
  else if s.buffers = none then
    (s,.error ⟨.runtimeError,"decode static buffers required before CG wrapper"⟩)
  else ({ s with cgWrapperGen := some s.staticBufGen },.ok ())

/-- `buf[:len(pages)].copy_(pages)`. -/
def fill (buf pages : List BlockId) : Except PyError (List BlockId) :=
  if buf.length < pages.length then
    .error ⟨.runtimeError,"The size of tensor a (" ++ toString buf.length
      ++ ") must match the size of tensor b (" ++ toString pages.length
      ++ ") at non-singleton dimension 0"⟩
  else .ok (pages ++ buf.drop pages.length)

def bulkFill (s : Backend) (st : StaticBuffers) (pages : List BlockId) :
    Except PyError (Backend × StaticBuffers) :=
  if pages = s.stPagesHost then .ok (s,st)
  else do
    let pageIndices ← fill st.pageIndices pages
    let kvIndices ← fill st.kvIndices pages
    return ({ s with stPagesHost := pages },
      { st with pageIndices := pageIndices, kvIndices := kvIndices })

/-- The fast branch of `begin_forward` after its check of the table. The plan
of the wrapper copies the active metadata into the reserved buffers, which are
the ones that it comes from. -/
def beginFast (s : Backend) (ctx : PagedAttnContext) (bt : List BlockId) (start slen ceiling : Nat) :
    Backend × Except PyError Unit :=
  let npages := ctx.cache.pages slen
  let s₁ := s.ensureDecodeStatic (max npages bt.length) ceiling
  match s₁.ensureDecodeCgWrapper with
  | (s₂,.error e) => (s₂,.error e)
  | (s₂,.ok ()) =>
      match s₂.buffers with
      | none => (s₂,.error ⟨.assertionError,""⟩)
      | some st =>
          match s₂.bulkFill st (bt.take npages) with
          | .error e => (s₂,.error e)
          | .ok (s₃,st') =>
              ({ s₃ with
                buffers := some { st' with
                  pageIndptr := (0,npages)
                  lastPageLen := lastLen ctx.cache slen
                  positions := start
                  batchIndices := 0
                  kvIndptr := (0,npages)
                  kvLast := if 0 < start then start%ctx.cache.blockSize else 0 }
                stNPages := npages
                stAppendStart := start
                active := .view npages
                qoIndptr := none
                activeDecodeWrapper := .cg
                attnCtx := some ctx },.ok ())

def beginGeneral (s : Backend) (ctx : PagedAttnContext) : Backend × Except PyError Unit :=
  match pageMetadata ctx.cache ctx.blockTables ctx.totalLens with
  | .error e => (s,.error e)
  | .ok m =>
      if ctx.isDecode then
        ({ s with active := .built m, qoIndptr := none, activeDecodeWrapper := .decode,
                  attnCtx := some ctx },.ok ())
      else
        ({ s with
          active := .built m
          qoIndptr := some (ctx.qLens.scanl (· + ·) 0)
          attnCtx := some ctx },.ok ())

def beginForward (s : Backend) (ctx : PagedAttnContext) (ceiling : Nat) :
    Backend × Except PyError Unit :=
  let fast := ctx.isDecode && ctx.blockTables.length == 1 && ctx.qLens.length == 1
    && ctx.qLens[0]? == some 1
  let s := { s with decodeFast := fast }
  if fast then
    match ctx.totalLens[0]?, ctx.cachedLens[0]?, ctx.blockTables[0]? with
    | some slen, some start, some bt =>
        if bt.length < ctx.cache.pages slen then
          (s,.error (shortTable (ctx.cache.pages slen) slen))
        else s.beginFast ctx bt start slen ceiling
    | _, _, _ => (s,.error ⟨.indexError,"list index out of range"⟩)
  else s.beginGeneral ctx

def endForward (s : Backend) : Backend :=
  { s with
    attnCtx := none
    active := .none
    qoIndptr := none
    decodeFast := false
    activeDecodeWrapper := .decode }

def metadata (s : Backend) : Option PageMetadata :=
  match s.active with
  | .none => none
  | .built m => some m
  | .view n => s.buffers.map fun st =>
      ⟨st.pageIndices.take n,[st.pageIndptr.1,st.pageIndptr.2],[st.lastPageLen]⟩

/-- The slow branch of `_append_one_layer`. -/
def slowAppend (cfg : CacheConfig) (table : List BlockId) (start appendLen : Nat) : AppendMetadata :=
  let active := table.take (cfg.pages (start+appendLen))
  { batchIndices := List.replicate appendLen 0
    positions := (List.range appendLen).map (start + ·)
    kvIndices := active
    kvIndptr := [0,active.length]
    kvLast := [if 0 < start then start%cfg.blockSize else 0] }

/-- What `_append_one_layer` passes on. -/
def appendOneLayer (s : Backend) (cfg : CacheConfig) (table : List BlockId) (start appendLen : Nat) :
    Except PyError AppendMetadata :=
  let pagesAfter := cfg.pages (start+appendLen)
  if table.length < pagesAfter then
    .error ⟨.runtimeError,"append_paged_kv_layer: need " ++ toString pagesAfter ++ " pages, have "
      ++ toString table.length⟩
  else
    match s.buffers with
    | some st =>
        if s.decodeFast ∧ appendLen = 1 ∧ pagesAfter = s.stNPages then
          .ok ⟨[st.batchIndices],[st.positions],st.kvIndices.take s.stNPages,
            [st.kvIndptr.1,st.kvIndptr.2],[st.kvLast]⟩
        else .ok (slowAppend cfg table start appendLen)
    | none => .ok (slowAppend cfg table start appendLen)

end Backend

inductive Call where
  | begin (ctx : PagedAttnContext) (ceiling : Nat)
  | finish

def Backend.call (s : Backend) : Call → Backend
  | .begin ctx ceiling => (s.beginForward ctx ceiling).1
  | .finish => s.endForward

namespace Backend

/-- The host copy of the page list is what both index buffers begin with, and
these have the capacity they were allocated with. -/
structure Filled (s : Backend) : Prop where
  page : ∀ st, s.buffers = some st → st.pageIndices.length = s.maxPagesStatic ∧
    s.stPagesHost <+: st.pageIndices
  kv : ∀ st, s.buffers = some st → st.kvIndices.length = s.maxPagesStatic ∧
    s.stPagesHost <+: st.kvIndices

theorem filled_fresh : Filled {} := ⟨by simp,by simp⟩

theorem le_doubleUntil {need : Nat} (fuel cap : Nat) (hpos : 0 < cap) (h : need ≤ cap+fuel) :
    need ≤ doubleUntil need fuel cap := by
  induction fuel generalizing cap with
  | zero => exact h
  | succ fuel ih =>
    simp only [doubleUntil]
    split_ifs with hlt
    · exact ih (cap*2) (by omega) (by omega)
    · omega

theorem Filled.ensureDecodeStatic {s : Backend} (h : Filled s) (maxPages ceiling : Nat) :
    Filled (s.ensureDecodeStatic maxPages ceiling) ∧
      (s.ensureDecodeStatic maxPages ceiling).buffers ≠ none ∧
      maxPages ≤ (s.ensureDecodeStatic maxPages ceiling).maxPagesStatic := by
  unfold Backend.ensureDecodeStatic
  split_ifs with hc
  · exact ⟨h,hc.1,hc.2⟩
  · have hle := @le_doubleUntil (max maxPages ceiling) (max maxPages ceiling) 8 (by omega) (by omega)
    refine ⟨⟨fun st hst => ?_,fun st hst => ?_⟩,by simp,by simp only; omega⟩
    · obtain rfl := Option.some.inj hst
      exact ⟨by simp [zeros],List.nil_prefix⟩
    · obtain rfl := Option.some.inj hst
      exact ⟨by simp [zeros],List.nil_prefix⟩

theorem Filled.ensureDecodeCgWrapper {s : Backend} (h : Filled s) (hb : s.buffers ≠ none) :
    ∃ s', s.ensureDecodeCgWrapper = (s',.ok ()) ∧ Filled s' ∧ s'.buffers = s.buffers ∧
      s'.maxPagesStatic = s.maxPagesStatic ∧ s'.decodeFast = s.decodeFast := by
  unfold Backend.ensureDecodeCgWrapper
  split_ifs
  · exact ⟨s,rfl,h,rfl,rfl,rfl⟩
  · exact ⟨_,rfl,⟨h.page,h.kv⟩,rfl,rfl,rfl⟩

/-- After the fill both index buffers begin with the pages of this call. -/
theorem Filled.bulkFill {s : Backend} {st : StaticBuffers} (h : Filled s) (hst : s.buffers = some st)
    {pages : List BlockId} (hp : pages.length ≤ s.maxPagesStatic) :
    ∃ kv page, s.bulkFill st pages = .ok ({ s with stPagesHost := pages },
        { st with kvIndices := kv, pageIndices := page }) ∧
      (page.length = s.maxPagesStatic ∧ pages <+: page) ∧
      (kv.length = s.maxPagesStatic ∧ pages <+: kv) := by
  obtain ⟨hpl,hpp⟩ := h.page st hst
  obtain ⟨hkl,hkp⟩ := h.kv st hst
  unfold Backend.bulkFill
  by_cases hsame : pages = s.stPagesHost
  · rw [if_pos hsame]
    exact ⟨st.kvIndices,st.pageIndices,by rw [hsame],⟨hpl,hsame ▸ hpp⟩,⟨hkl,hsame ▸ hkp⟩⟩
  · rw [if_neg hsame]
    have hfill : ∀ buf : List BlockId, buf.length = s.maxPagesStatic →
        fill buf pages = .ok (pages ++ buf.drop pages.length) := by
      intro buf hb
      rw [fill,if_neg (by omega)]
    rw [hfill _ hpl,hfill _ hkl]
    refine ⟨_,_,rfl,⟨?_,List.prefix_append _ _⟩,⟨?_,List.prefix_append _ _⟩⟩
    · rw [List.length_append,List.length_drop]
      omega
    · rw [List.length_append,List.length_drop]
      omega

theorem Filled.beginFast {s : Backend} (h : Filled s) {ctx : PagedAttnContext} {bt : List BlockId}
    (start slen ceiling : Nat) (hlen : ctx.cache.pages slen ≤ bt.length) :
    ∃ s' st, s.beginFast ctx bt start slen ceiling = (s',.ok ()) ∧ Filled s' ∧
      s'.decodeFast = s.decodeFast ∧ s'.buffers = some st ∧ s'.stNPages = ctx.cache.pages slen ∧
      s'.active = .view (ctx.cache.pages slen) ∧
      bt.take (ctx.cache.pages slen) <+: st.pageIndices ∧
      bt.take (ctx.cache.pages slen) <+: st.kvIndices ∧
      st.pageIndptr = (0,ctx.cache.pages slen) ∧ st.lastPageLen = lastLen ctx.cache slen ∧
      st.positions = start ∧ st.batchIndices = 0 ∧ st.kvIndptr = (0,ctx.cache.pages slen) ∧
      st.kvLast = if 0 < start then start%ctx.cache.blockSize else 0 := by
  have hfast : (s.ensureDecodeStatic (max (ctx.cache.pages slen) bt.length) ceiling).decodeFast =
      s.decodeFast := by
    unfold Backend.ensureDecodeStatic
    split_ifs <;> rfl
  obtain ⟨h₁,hne,hcap⟩ := h.ensureDecodeStatic (max (ctx.cache.pages slen) bt.length) ceiling
  generalize hs₁ : s.ensureDecodeStatic (max (ctx.cache.pages slen) bt.length) ceiling = s₁
    at h₁ hne hcap hfast
  obtain ⟨s₂,hs₂,h₂,hbuf,hmax,hfast₂⟩ := h₁.ensureDecodeCgWrapper hne
  obtain ⟨st,hst⟩ := Option.ne_none_iff_exists'.mp (hbuf.symm ▸ hne)
  have hpages : (bt.take (ctx.cache.pages slen)).length ≤ s₂.maxPagesStatic := by
    rw [List.length_take]
    omega
  obtain ⟨kv,page,hfill,hp,hk⟩ := h₂.bulkFill hst hpages
  simp only [Backend.beginFast,hs₁,hs₂,hst,hfill]
  refine ⟨_,_,rfl,⟨fun st' hst' => ?_,fun st' hst' => ?_⟩,hfast₂.trans hfast,rfl,rfl,rfl,hp.2,hk.2,
    rfl,rfl,rfl,rfl,rfl,rfl⟩
  · obtain rfl := Option.some.inj hst'
    exact hp
  · obtain rfl := Option.some.inj hst'
    exact hk

theorem Filled.beginForward {s : Backend} (h : Filled s) (ctx : PagedAttnContext) (ceiling : Nat) :
    Filled (s.beginForward ctx ceiling).1 := by
  have hset : ∀ b, Filled { s with decodeFast := b } := fun _ => ⟨h.page,h.kv⟩
  unfold Backend.beginForward
  simp only
  split_ifs
  · split
    · split_ifs
      · exact hset _
      · obtain ⟨s',st,heq,hf,_⟩ := (hset _).beginFast _ _ ceiling (Nat.not_lt.mp ‹_›)
        rw [heq]
        exact hf
    · exact hset _
  · unfold beginGeneral
    split
    · exact hset _
    · split_ifs <;> exact ⟨h.page,h.kv⟩

theorem Filled.call {s : Backend} (h : Filled s) (e : Call) : Filled (s.call e) := by
  cases e with
  | begin ctx ceiling => exact h.beginForward ctx ceiling
  | finish => exact ⟨h.page,h.kv⟩

def run (calls : List Call) : Backend := calls.foldl Backend.call {}

theorem filled_run (calls : List Call) : Filled (run calls) := by
  have key : ∀ (calls : List Call) (s : Backend), Filled s → Filled (calls.foldl Backend.call s) := by
    intro calls
    induction calls with
    | nil => intro s h; exact h
    | cons e calls ih => intro s h; exact ih _ (h.call e)
  exact key calls {} filled_fresh

theorem take_of_prefix {A : Type} {xs ys : List A} (h : xs <+: ys) : ys.take xs.length = xs :=
  (List.prefix_iff_eq_take.mp h).symm

theorem beginForward_single (s : Backend) {ctx : PagedAttnContext} (ceiling : Nat) {bt : List BlockId}
    {start : Nat} {lens : List Nat} (hd : ctx.isDecode = true) (hb : ctx.blockTables = [bt])
    (hq : ctx.qLens = [1]) (hc : ctx.cachedLens = start :: lens) : s.beginForward ctx ceiling =
      if bt.length < ctx.cache.pages (start+1) then
        ({ s with decodeFast := true },
          .error (shortTable (ctx.cache.pages (start+1)) (start+1)))
      else ({ s with decodeFast := true }).beginFast ctx bt start (start+1) ceiling := by
  simp [Backend.beginForward,hd,hb,hq,ctx.totalLens_single hq hc,hc]

/-- After any calls, a decode step of one sequence and one token raises what
`_page_metadata` raises for its context, and otherwise leaves the metadata that
`_page_metadata` computes for it and appends with the metadata of the slow
branch. -/
theorem decode_fast_path (calls : List Call) (ctx : PagedAttnContext) (ceiling : Nat)
    {bt : List BlockId} {start : Nat} {lens : List Nat} (hd : ctx.isDecode = true)
    (hb : ctx.blockTables = [bt]) (hq : ctx.qLens = [1]) (hc : ctx.cachedLens = start :: lens) :
    match pageMetadata ctx.cache ctx.blockTables ctx.totalLens with
    | .error e => ((run calls).beginForward ctx ceiling).2 = .error e
    | .ok m => ((run calls).beginForward ctx ceiling).2 = .ok () ∧
        ((run calls).beginForward ctx ceiling).1.metadata = some m ∧
        ((run calls).beginForward ctx ceiling).1.appendOneLayer ctx.cache bt start 1 =
          .ok (slowAppend ctx.cache bt start 1) := by
  have htotal := ctx.totalLens_single hq hc
  have hbegin := beginForward_single (run calls) ceiling hd hb hq hc
  have hmeta : pageMetadata ctx.cache ctx.blockTables ctx.totalLens =
      if bt.length < ctx.cache.pages (start+1) then
        .error (shortTable (ctx.cache.pages (start+1)) (start+1))
      else .ok ⟨bt.take (ctx.cache.pages (start+1)),[0,(bt.take (ctx.cache.pages (start+1))).length],
        [lastLen ctx.cache (start+1)]⟩ := by
    simp [pageMetadata,pageMetadataLoop,hb,htotal]
  rw [hmeta,hbegin]
  by_cases hlt : bt.length < ctx.cache.pages (start+1)
  · simp only [if_pos hlt]
  · have hle := Nat.not_lt.mp hlt
    have hlen : (bt.take (ctx.cache.pages (start+1))).length = ctx.cache.pages (start+1) := by
      rw [List.length_take,Nat.min_eq_left hle]
    have hfilled : Filled { run calls with decodeFast := true } :=
      ⟨(filled_run calls).page,(filled_run calls).kv⟩
    obtain ⟨s',st,heq,_,hfast,hst,hn,hact,hpage,hkv,hpi,hll,hpos,hbi,hki,hkl⟩ :=
      @Filled.beginFast _ hfilled ctx bt start (start+1) ceiling hle
    have hpt := take_of_prefix hpage
    have hkt := take_of_prefix hkv
    rw [hlen] at hpt hkt
    simp only [if_neg hlt,heq]
    refine ⟨trivial,?_,?_⟩
    · simp only [metadata,hact,hst,Option.map_some,hpt,hpi,hll,hlen]
    · simp only [appendOneLayer,if_neg hlt,hst,hfast,hn,true_and,if_true,hkt,hpos,hbi,hki,hkl]
      simp [slowAppend,hlen]

def pairs : CacheConfig := ⟨2,8,Nat.two_pos,pos_eight⟩

theorem decode_fast_path_pairs :
    match pageMetadata pairs [[3,1]] [4] with
    | .error e => ((run [.begin ⟨pairs,[[5,6,7]],[5],[1],true⟩ 8,.finish]).beginForward
        ⟨pairs,[[3,1]],[3],[1],true⟩ 8).2 = .error e
    | .ok m => ((run [.begin ⟨pairs,[[5,6,7]],[5],[1],true⟩ 8,.finish]).beginForward
          ⟨pairs,[[3,1]],[3],[1],true⟩ 8).2 = .ok () ∧
        ((run [.begin ⟨pairs,[[5,6,7]],[5],[1],true⟩ 8,.finish]).beginForward
          ⟨pairs,[[3,1]],[3],[1],true⟩ 8).1.metadata = some m ∧
        ((run [.begin ⟨pairs,[[5,6,7]],[5],[1],true⟩ 8,.finish]).beginForward
          ⟨pairs,[[3,1]],[3],[1],true⟩ 8).1.appendOneLayer pairs [3,1] 3 1 =
          .ok (slowAppend pairs [3,1] 3 1) :=
  decode_fast_path [.begin ⟨pairs,[[5,6,7]],[5],[1],true⟩ 8,.finish] ⟨pairs,[[3,1]],[3],[1],true⟩ 8
    rfl rfl rfl rfl

end Backend

end SglangLite.Decode
