import SglangLite.Paged.Cancel
import SglangLite.Paged.Coherence

set_option autoImplicit false

namespace SglangLite.Paged
open Kv Sched Text

/-- The model under paged attention. The KV of a token follows from the KV of
the positions before it, and the greedy token from the KV up to its own position;
`stored i` is the greedy token of the `last_logits` of sequence `i`. -/
structure PagedModel (V : Type) where
  kv : List V → Token → V
  next : List V → Token
  stored : SeqId → Token

namespace Engine

variable {V : Type} [Zero V] (m : PagedModel V) (cfg : Config V)

/-- What the attention kernel reads through a block table: the KV of the first
`n` positions. -/
def readKv (cc : CacheConfig) (c : RadixCache V) (table : List BlockId) (n : Nat) : List V :=
  (List.range n).map fun j =>
    match table[j/cc.blockSize]? with
    | some b => c.pages b (j%cc.blockSize)
    | none => 0

/-- `_model_forward_paged` for one sequence and one input token, with the update
of the sequence that follows it. -/
def forwardPaged (e : Engine V) (i : SeqId) (t : Token) : Engine V × Token :=
  let q := e.seq i
  let v := m.kv (readKv cfg.cache e.radix q.blockTable q.cachedLen) t
  let radix := RadixCache.writeKv cfg.cache q.blockTable e.radix q.cachedLen [v]
  (({ e with radix := radix }).modify i fun q =>
      { q with kvState := false, cachedLen := q.cachedLen+1 },
    m.next (readKv cfg.cache radix q.blockTable (q.cachedLen+1)))

def enterPage (e : Engine V) (i : SeqId) : Engine V × Bool :=
  match ensureBlocks cfg e i ((e.seq i).cachedLen+1) with
  | (e',true) => cowPage cfg e' i
  | (e',false) => (e',false)

def lastFed (q : Sequence) : Token := (q.outputIds.getLast?.or q.inputIds.getLast?).getD 0

def decodeStep (e : Engine V) (i : SeqId) (t : Token) : Engine V × Option Token :=
  match enterPage cfg e i with
  | (e',true) => ((forwardPaged m cfg e' i t).1,some (forwardPaged m cfg e' i t).2)
  | (e',false) => (e',none)

/-- `_decode_one` of a greedy sequence. -/
def decodeOne (e : Engine V) (i : SeqId) : Engine V × Option Token :=
  if fromLogits (e.seq i) then
    (e.modify i fun q => { q with cachedLen := q.inputIds.length },some (m.stored i))
  else decodeStep m cfg e i (lastFed (e.seq i))

/-- `seq.output_ids.extend`. -/
def extend (e : Engine V) (i : SeqId) (ts : List Token) : Engine V :=
  e.modify i fun q => { q with outputIds := q.outputIds ++ ts }

def after (t : Token) (r : Engine V × Option (List Token)) : Engine V × Option (List Token) :=
  (r.1,r.2.map (t :: ·))

def ends (q : Sequence) (t : Token) : Bool := !q.ignoreEos && decide (cfg.eos = some t)

/-- At most `n` calls of `_decode_one`, each token appended by the caller. -/
def decodeCalls (i : SeqId) : Nat → Engine V → Engine V × Option (List Token)
  | 0, e => (e,some [])
  | n+1, e =>
      match decodeOne m cfg e i with
      | (e',none) => (e',none)
      | (e',some t) =>
          if ends cfg (e.seq i) t then (e'.extend i [t],some [t])
          else after t (decodeCalls i n (e'.extend i [t]))

/-- The loop of `_decode_burst_paged_greedy` with its input token. A sequence
that ignores the end-of-sequence token gets its output after the loop. -/
def burstLoop (i : SeqId) (ignore : Bool) : Nat → Token → Engine V → Engine V × Option (List Token)
  | 0, _, e => (e,some [])
  | n+1, t, e =>
      let q := e.seq i
      let entered :=
        if q.cachedLen%cfg.cache.blockSize = 0 ∨ q.blockTable = [] then enterPage cfg e i
        else (e,true)
      match entered with
      | (e',false) => (e',none)
      | (e',true) =>
          let r := forwardPaged m cfg e' i t
          if ignore then after r.2 (burstLoop i ignore n r.2 r.1)
          else if cfg.eos = some r.2 then (r.1.extend i [r.2],some [r.2])
          else after r.2 (burstLoop i ignore n r.2 (r.1.extend i [r.2]))

/-- The part of `_decode_burst_paged_greedy` after the stored logits. -/
def burstRest (e : Engine V) (i : SeqId) (n : Nat) : Engine V × Option (List Token) :=
  match burstLoop m cfg i (e.seq i).ignoreEos n (lastFed (e.seq i)) e with
  | (e',none) => (e',none)
  | (e',some ts) => (if (e.seq i).ignoreEos then e'.extend i ts else e',some ts)

def decodeBurstPagedGreedy (e : Engine V) (i : SeqId) (n : Nat) : Engine V × Option (List Token) :=
  if fromLogits (e.seq i) then
    let t := m.stored i
    let e' := (e.modify i fun q => { q with cachedLen := q.inputIds.length }).extend i [t]
    if n ≤ 1 ∨ ends cfg (e.seq i) t then (e',some [t]) else after t (burstRest m cfg e' i (n-1))
  else burstRest m cfg e i n

variable {m : PagedModel V} {cfg : Config V} {e e' : Engine V} {i : SeqId}

section Extend

omit [Zero V] in
theorem extend_nil (e : Engine V) (i : SeqId) : e.extend i [] = e := modify_fixed (by simp)

omit [Zero V] in
theorem extend_extend (e : Engine V) (i : SeqId) (ts us : List Token) :
    (e.extend i ts).extend i us = e.extend i (ts ++ us) := by
  simp only [extend,Engine.modify,Scheduler.modify,List.modify_modify_eq,Function.comp_def,
    List.append_assoc]

omit [Zero V] in
theorem Base.extend (h : Base cfg e) (i : SeqId) (ts : List Token) : Base cfg (e.extend i ts) :=
  h.modify i (fun _ => rfl) (fun _ => rfl)

omit [Zero V] in
theorem extend_modify (e : Engine V) (ts : List Token) {f : Sequence → Sequence}
    (hf : ∀ q, f { q with outputIds := q.outputIds ++ ts } =
      { f q with outputIds := (f q).outputIds ++ ts }) :
    (e.extend i ts).modify i f = (e.modify i f).extend i ts := by
  simp only [extend,Engine.modify,Scheduler.modify,List.modify_modify_eq,Function.comp_def,hf]

omit [Zero V] in
theorem seq_extend (hi : i < e.sched.seqs.length) (ts : List Token) :
    (e.extend i ts).seq i = { e.seq i with outputIds := (e.seq i).outputIds ++ ts } :=
  seq_modify_self hi _

omit [Zero V] in
theorem pages_extend (ts : List Token) :
    ((e.extend i ts).seq i).blockTable = (e.seq i).blockTable ∧
      ((e.extend i ts).seq i).cachedLen = (e.seq i).cachedLen := by
  have hf := fun {α : Type} (g : Sequence → α)
      (hg : ∀ q : Sequence, g { q with outputIds := q.outputIds ++ ts } = g q) =>
    seq_modify_field (e := e) g hg i i
  exact ⟨hf (·.blockTable) fun _ => rfl,hf (·.cachedLen) fun _ => rfl⟩

theorem ensureLoop_extend (n : Nat) (e : Engine V) (ts : List Token) :
    ensureLoop cfg i n (e.extend i ts) =
      ((ensureLoop cfg i n e).1.extend i ts,(ensureLoop cfg i n e).2) := by
  induction n generalizing e with
  | zero => rfl
  | succ n ih =>
    have hr : (e.extend i ts).radix = e.radix := rfl
    simp only [ensureLoop,hr]
    cases e.radix.allocateBlocks cfg.cache 1 with
    | mk radix o =>
      cases o with
      | none => rfl
      | some ids =>
        simp only
        rw [← ih]
        congr 1
        exact extend_modify ({ e with radix := radix }) ts fun _ => rfl

theorem cowPage_extend (e : Engine V) (ts : List Token) :
    cowPage cfg (e.extend i ts) i = ((cowPage cfg e i).1.extend i ts,(cowPage cfg e i).2) := by
  obtain ⟨ht,hc⟩ := pages_extend (e := e) (i := i) ts
  have hr : (e.extend i ts).radix = e.radix := rfl
  simp only [cowPage,ht,hc,hr]
  cases (e.seq i).blockTable[(e.seq i).cachedLen/cfg.cache.blockSize]? with
  | none => rfl
  | some b =>
    simp only
    cases hcow : e.radix.cowBlockIfShared cfg.cache b with
    | mk radix o =>
      cases o with
      | none => rfl
      | some b' => exact Prod.ext (extend_modify ({ e with radix := radix }) ts fun _ => rfl) rfl

theorem forwardPaged_extend (e : Engine V) (t : Token) (ts : List Token) :
    forwardPaged m cfg (e.extend i ts) i t =
      ((forwardPaged m cfg e i t).1.extend i ts,(forwardPaged m cfg e i t).2) := by
  obtain ⟨ht,hc⟩ := pages_extend (e := e) (i := i) ts
  simp only [forwardPaged,ht,hc]
  refine Prod.ext ?_ rfl
  let v := m.kv (readKv cfg.cache e.radix (e.seq i).blockTable (e.seq i).cachedLen) t
  let c := RadixCache.writeKv cfg.cache (e.seq i).blockTable e.radix (e.seq i).cachedLen [v]
  exact extend_modify ({ e with radix := c }) ts fun _ => rfl

theorem decodeStep_extend (e : Engine V) (t : Token) (ts : List Token) :
    decodeStep m cfg (e.extend i ts) i t =
      ((decodeStep m cfg e i t).1.extend i ts,(decodeStep m cfg e i t).2) := by
  obtain ⟨ht,hc⟩ := pages_extend (e := e) (i := i) ts
  have henter : enterPage cfg (e.extend i ts) i =
      ((enterPage cfg e i).1.extend i ts,(enterPage cfg e i).2) := by
    simp only [enterPage,ensureBlocks,ht,hc,ensureLoop_extend]
    cases ensureLoop cfg i _ e with
    | mk e₁ ok =>
      cases ok with
      | false => rfl
      | true => exact cowPage_extend e₁ ts
  simp only [decodeStep,henter]
  cases enterPage cfg e i with
  | mk e₁ ok =>
    cases ok with
    | false => rfl
    | true =>
      simp only [forwardPaged_extend]

end Extend

section Own

def SharedBlock (c : RadixCache V) (b : BlockId) : Prop := ∃ r, c.refs b = some r ∧ 1 < r

/-- Position `pos` begins a page, or falls into a page that nobody else owns. -/
def OwnPage (cfg : Config V) (c : RadixCache V) (table : List BlockId) (pos : Nat) : Prop :=
  pos%cfg.cache.blockSize = 0 ∨ table = [] ∨
    ∃ b, table[pos/cfg.cache.blockSize]? = some b ∧ ¬ SharedBlock c b

omit [Zero V] in
theorem pages_succ (cc : CacheConfig) (pos : Nat) : cc.pages (pos+1) = pos/cc.blockSize+1 := by
  have hpos := cc.blockSize_pos
  rw [CacheConfig.pages,show pos+1+cc.blockSize-1 = pos+cc.blockSize by omega,
    Nat.add_div_right _ hpos]

theorem cow_own {c : RadixCache V} {b : BlockId} (h : ¬ SharedBlock c b) :
    c.cowBlockIfShared cfg.cache b = (c,some b) := by
  unfold RadixCache.cowBlockIfShared
  cases hr : c.refs b with
  | none => rfl
  | some r =>
    have hle : r ≤ 1 := by
      by_contra hlt
      exact h ⟨r,hr,by omega⟩
    simp [hle]

theorem enterPage_own {b : BlockId} (hb : (e.seq i).blockTable[(e.seq i).cachedLen/cfg.cache.blockSize]? = some b)
    (hown : ¬ SharedBlock e.radix b) : enterPage cfg e i = (e,true) := by
  have hlt := (List.getElem?_eq_some_iff.mp hb).1
  have hens : ensureBlocks cfg e i ((e.seq i).cachedLen+1) = (e,true) := by
    rw [ensureBlocks,pages_succ,Nat.sub_eq_zero_of_le hlt]
    rfl
  have hset : ({ e with radix := e.radix }).modify i
      (fun q => { q with blockTable := q.blockTable.set ((e.seq i).cachedLen/cfg.cache.blockSize) b }) = e := by
    refine modify_fixed ?_
    have hsame : (e.seq i).blockTable.set ((e.seq i).cachedLen/cfg.cache.blockSize) b = (e.seq i).blockTable := by
      obtain ⟨hl,hget⟩ := List.getElem?_eq_some_iff.mp hb
      rw [← hget,List.set_getElem_self]
    show ({ e.seq i with blockTable := _ } : Sequence) = e.seq i
    rw [hsame]
  rw [enterPage,hens]
  simp only [cowPage,hb,cow_own hown]
  exact Prod.ext hset rfl

omit [Zero V] in
theorem own_of_swapped {page : Nat} {b b' : BlockId} (h : Swapped cfg e i page b b' e') :
    ¬ SharedBlock e'.radix b' := by
  rintro ⟨r,hr,hlt⟩
  have hcount := h.cowed.owned.refs_eq b' r hr
  obtain ⟨hheld,htree⟩ := h.cowed.alone
  simp only [hheld,htree,if_true] at hcount
  split_ifs at hcount <;> omega

structure Entered (cfg : Config V) (e : Engine V) (i : SeqId) (e' : Engine V) : Prop where
  base : Base cfg e'
  length : e'.sched.seqs.length = e.sched.seqs.length
  cachedLen : (e'.seq i).cachedLen = (e.seq i).cachedLen
  outputIds : (e'.seq i).outputIds = (e.seq i).outputIds
  ignoreEos : (e'.seq i).ignoreEos = (e.seq i).ignoreEos
  page : ∃ b, (e'.seq i).blockTable[(e.seq i).cachedLen/cfg.cache.blockSize]? = some b ∧
    ¬ SharedBlock e'.radix b

theorem enterPage_entered (hb : Base cfg e) (hi : i < e.sched.seqs.length)
    (h : enterPage cfg e i = (e',true)) : Entered cfg e i e' := by
  obtain ⟨new,hg,hlen⟩ := hb.ensureBlocks ((e.seq i).cachedLen+1) hi
  unfold enterPage at h
  cases hens : ensureBlocks cfg e i ((e.seq i).cachedLen+1) with
  | mk e₁ ok =>
    rw [hens] at hg hlen h
    cases ok with
    | false => simp at h
    | true =>
      simp only at h hg hlen
      have hlt : (e₁.seq i).cachedLen/cfg.cache.blockSize < (e₁.seq i).blockTable.length := by
        have := hlen trivial
        rw [pages_succ] at this
        rw [hg.field (·.cachedLen) (fun _ _ => rfl)]
        omega
      have hi₁ : i < e₁.sched.seqs.length := by rw [hg.length]; exact hi
      rcases hg.base.cowPage hi₁ with ⟨_,_,_,_,hnone⟩ | ⟨b,b',hsw⟩
      · rw [h] at hnone
        have := List.getElem?_eq_none_iff.mp (hnone rfl)
        omega
      · rw [h] at hsw
        simp only at hsw
        have hself := hsw.seq_self hi₁
        refine ⟨hsw.base,?_,?_,?_,?_,b',?_,own_of_swapped hsw⟩
        · rw [hsw.sched,Scheduler.length_modify,hg.length]
        · rw [hself]
          exact hg.field (·.cachedLen) (fun _ _ => rfl) i
        · rw [hself]
          exact hg.field (·.outputIds) (fun _ _ => rfl) i
        · rw [hself]
          exact hg.field (·.ignoreEos) (fun _ _ => rfl) i
        · rw [hself]
          have hc : (e₁.seq i).cachedLen = (e.seq i).cachedLen := hg.field (·.cachedLen) (fun _ _ => rfl) i
          rw [hc] at hlt ⊢
          simp [hlt]

theorem forwardPaged_seq (hi : i < e.sched.seqs.length) (t : Token) :
    (forwardPaged m cfg e i t).1.seq i =
      { e.seq i with kvState := false, cachedLen := (e.seq i).cachedLen+1 } := by
  unfold forwardPaged
  exact seq_modify_self (e := { e with radix := _ }) hi _

theorem forwardPaged_base (hb : Base cfg e) (i : SeqId) (t : Token) :
    Base cfg (forwardPaged m cfg e i t).1 := by
  unfold forwardPaged
  simp only
  rw [writeKv_eq]
  exact (hb.withPages _).modify i (fun _ => rfl) (fun _ => rfl)

theorem forwardPaged_refs (e : Engine V) (i : SeqId) (t : Token) :
    (forwardPaged m cfg e i t).1.radix.refs = e.radix.refs := by
  unfold forwardPaged
  simp only
  rw [writeKv_eq]
  rfl

omit [Zero V] in
theorem OwnPage.succ {c : RadixCache V} {table : List BlockId} {pos : Nat} {b : BlockId}
    (hb : table[pos/cfg.cache.blockSize]? = some b) (hown : ¬ SharedBlock c b) :
    OwnPage cfg c table (pos+1) := by
  by_cases hmod : (pos+1)%cfg.cache.blockSize = 0
  · exact .inl hmod
  · have hdiv : (pos+1)/cfg.cache.blockSize = pos/cfg.cache.blockSize := by
      rw [Nat.succ_div,if_neg fun hd => hmod (Nat.mod_eq_zero_of_dvd hd),Nat.add_zero]
    exact .inr (.inr ⟨b,by rw [hdiv]; exact hb,hown⟩)

structure Stepped (cfg : Config V) (e : Engine V) (i : SeqId) (e' : Engine V) : Prop where
  base : Base cfg e'
  length : e'.sched.seqs.length = e.sched.seqs.length
  outputIds : (e'.seq i).outputIds = (e.seq i).outputIds
  ignoreEos : (e'.seq i).ignoreEos = (e.seq i).ignoreEos
  own : OwnPage cfg e'.radix (e'.seq i).blockTable (e'.seq i).cachedLen

theorem decodeStep_stepped {t u : Token} (hb : Base cfg e) (hi : i < e.sched.seqs.length)
    (h : decodeStep m cfg e i t = (e',some u)) : Stepped cfg e i e' := by
  unfold decodeStep at h
  cases hent : enterPage cfg e i with
  | mk e₁ ok =>
    rw [hent] at h
    cases ok with
    | false => simp at h
    | true =>
      have hen := enterPage_entered hb hi hent
      have hi₁ : i < e₁.sched.seqs.length := by rw [hen.length]; exact hi
      simp only [Prod.mk.injEq] at h
      obtain ⟨rfl,_⟩ := h
      have hseq : (forwardPaged m cfg e₁ i t).1.seq i =
          { e₁.seq i with kvState := false, cachedLen := (e₁.seq i).cachedLen+1 } := forwardPaged_seq hi₁ t
      obtain ⟨b,hpage,hown⟩ := hen.page
      refine ⟨forwardPaged_base hen.base i t,?_,?_,?_,?_⟩
      · simp only [forwardPaged,Engine.modify,Scheduler.length_modify]
        exact hen.length
      · rw [hseq]
        exact hen.outputIds
      · rw [hseq]
        exact hen.ignoreEos
      · rw [hseq]
        refine OwnPage.succ (b := b) (by rw [hen.cachedLen]; exact hpage) ?_
        rw [SharedBlock,forwardPaged_refs]
        exact hown

end Own

section Loop

structure Decoding (cfg : Config V) (e : Engine V) (i : SeqId) : Prop where
  base : Base cfg e
  heap : i < e.sched.seqs.length
  own : OwnPage cfg e.radix (e.seq i).blockTable (e.seq i).cachedLen
  noLogits : fromLogits (e.seq i) = false

theorem Decoding.next {t u : Token} (h : Decoding cfg e i)
    (hstep : decodeStep m cfg e i t = (e',some u)) :
    Decoding cfg (e'.extend i [u]) i ∧ lastFed ((e'.extend i [u]).seq i) = u ∧
      ((e'.extend i [u]).seq i).ignoreEos = (e.seq i).ignoreEos := by
  have hs := decodeStep_stepped h.base h.heap hstep
  have hi : i < e'.sched.seqs.length := by rw [hs.length]; exact h.heap
  obtain ⟨ht,hc⟩ := pages_extend (e := e') (i := i) [u]
  have hseq := seq_extend hi [u]
  refine ⟨⟨hs.base.extend i [u],?_,?_,?_⟩,?_,?_⟩
  · simpa [extend,Engine.modify] using hi
  · rw [ht,hc]
    exact hs.own
  · rw [hseq]
    simp [fromLogits]
  · rw [hseq]
    simp [lastFed]
  · rw [hseq]
    exact hs.ignoreEos

/-- On a page of its own, a step of the burst is a decode step. -/
theorem burstLoop_succ (hown : OwnPage cfg e.radix (e.seq i).blockTable (e.seq i).cachedLen)
    (ignore : Bool) (n : Nat) (t : Token) :
    burstLoop m cfg i ignore (n+1) t e =
      match decodeStep m cfg e i t with
      | (e',none) => (e',none)
      | (e',some u) =>
          if ignore then after u (burstLoop m cfg i ignore n u e')
          else if cfg.eos = some u then (e'.extend i [u],some [u])
          else after u (burstLoop m cfg i ignore n u (e'.extend i [u])) := by
  have hentered : (if (e.seq i).cachedLen%cfg.cache.blockSize = 0 ∨ (e.seq i).blockTable = [] then
      enterPage cfg e i else (e,true)) = enterPage cfg e i := by
    split_ifs with hif
    · rfl
    · rcases hown with hmod | hnil | ⟨b,hb,hns⟩
      · exact absurd (.inl hmod) hif
      · exact absurd (.inr hnil) hif
      · exact (enterPage_own hb hns).symm
  simp only [burstLoop,hentered,decodeStep]
  cases enterPage cfg e i with
  | mk e₁ ok =>
    cases ok with
    | false => rfl
    | true => rfl

theorem decodeCalls_succ (h : Decoding cfg e i) (n : Nat) :
    decodeCalls m cfg i (n+1) e =
      match decodeStep m cfg e i (lastFed (e.seq i)) with
      | (e',none) => (e',none)
      | (e',some u) =>
          if ends cfg (e.seq i) u then (e'.extend i [u],some [u])
          else after u (decodeCalls m cfg i n (e'.extend i [u])) := by
  simp only [decodeCalls,decodeOne,h.noLogits]
  rfl

theorem burstLoop_calls (n : Nat) (h : Decoding cfg e i) (hig : (e.seq i).ignoreEos = false) :
    burstLoop m cfg i false n (lastFed (e.seq i)) e = decodeCalls m cfg i n e := by
  induction n generalizing e with
  | zero => rfl
  | succ n ih =>
    rw [burstLoop_succ h.own,decodeCalls_succ h]
    cases hstep : decodeStep m cfg e i (lastFed (e.seq i)) with
    | mk e₁ o =>
      cases o with
      | none => rfl
      | some u =>
        obtain ⟨hd,hlast,hig'⟩ := h.next hstep
        have hrest := ih hd (hig'.trans hig)
        rw [hlast] at hrest
        simp [ends,hig,hrest]

/-- The burst of a sequence that ignores the end-of-sequence token: its output is
as many tokens behind as the loop has produced. -/
theorem burstLoop_ignoring (n : Nat) (t : Token) (ts : List Token)
    (h : Decoding cfg (e.extend i ts) i) (hlast : lastFed ((e.extend i ts).seq i) = t)
    (hig : ((e.extend i ts).seq i).ignoreEos = true) :
    ∃ us, decodeCalls m cfg i n (e.extend i ts) =
        ((burstLoop m cfg i true n t e).1.extend i (ts ++ us),(burstLoop m cfg i true n t e).2) ∧
      ∀ vs, (burstLoop m cfg i true n t e).2 = some vs → vs = us := by
  induction n generalizing e t ts with
  | zero => exact ⟨[],by simp [decodeCalls,burstLoop],by simp [burstLoop,eq_comm]⟩
  | succ n ih =>
    obtain ⟨ht,hc⟩ := pages_extend (e := e) (i := i) ts
    have hown : OwnPage cfg e.radix (e.seq i).blockTable (e.seq i).cachedLen := by
      rw [← ht,← hc]
      exact h.own
    have hext : decodeStep m cfg (e.extend i ts) i t =
        ((decodeStep m cfg e i t).1.extend i ts,(decodeStep m cfg e i t).2) := decodeStep_extend e t ts
    rw [burstLoop_succ hown,decodeCalls_succ h,hlast,hext]
    cases hstep : decodeStep m cfg e i t with
    | mk e₁ o =>
      rw [hstep] at hext
      cases o with
      | none => exact ⟨[],by simp,by simp⟩
      | some u =>
        obtain ⟨hd,hlast',hig'⟩ := h.next hext
        rw [extend_extend] at hd hlast' hig'
        obtain ⟨us,hcalls,huniq⟩ := ih u (ts ++ [u]) hd hlast' (hig'.trans hig)
        refine ⟨u :: us,?_,?_⟩
        · simp only [ends,hig,extend_extend,hcalls,after,if_true]
          simp
        · intro vs hvs
          simp only [if_true,after,Option.map_eq_some_iff] at hvs
          obtain ⟨ws,hws,rfl⟩ := hvs
          rw [huniq ws hws]

end Loop

section Calls

def nextFed (m : PagedModel V) (i : SeqId) (q : Sequence) : Token :=
  if fromLogits q then m.stored i else lastFed q

def nextPos (q : Sequence) : Nat := if fromLogits q then q.inputIds.length else q.cachedLen

/-- Both leave the same contents on the pages of all others: the other block
tables and the nodes of the tree. -/
def SeenAlike (e : Engine V) (i : SeqId) (c c' : RadixCache V) : Prop :=
  (∀ j, j ≠ i → ∀ b ∈ (e.seq j).blockTable, c.pages b = c'.pages b) ∧
    ∀ p, ∀ b ∈ e.radix.tree.blocksAt p, c.pages b = c'.pages b

/-- A burst of `n` tokens and `n` single decode calls give the same tokens, and
the same pages to everybody else. -/
def BurstAgrees (m : PagedModel V) (cfg : Config V) (e : Engine V) (i : SeqId) (n : Nat) : Prop :=
  (decodeBurstPagedGreedy m cfg e i n).2 = (decodeCalls m cfg i n e).2 ∧
    SeenAlike e i (decodeBurstPagedGreedy m cfg e i n).1.radix (decodeCalls m cfg i n e).1.radix

theorem burstRest_calls (h : Decoding cfg e i) (n : Nat) :
    (burstRest m cfg e i n).2 = (decodeCalls m cfg i n e).2 ∧
      (burstRest m cfg e i n).1.radix = (decodeCalls m cfg i n e).1.radix := by
  unfold burstRest
  cases hig : (e.seq i).ignoreEos with
  | false =>
    rw [burstLoop_calls n h hig]
    cases decodeCalls m cfg i n e with
    | mk e₁ o => cases o <;> exact ⟨rfl,rfl⟩
  | true =>
    have hnil := extend_nil e i
    obtain ⟨us,hcalls,_⟩ := burstLoop_ignoring (m := m) n (lastFed (e.seq i)) [] (by rw [hnil]; exact h)
      (by rw [hnil]) (by rw [hnil]; exact hig)
    rw [hnil] at hcalls
    rw [hcalls]
    cases burstLoop m cfg i true n (lastFed (e.seq i)) e with
    | mk e₁ o => cases o <;> exact ⟨rfl,rfl⟩

omit [Zero V] in
/-- The stored logits give the first token, and decoding goes on behind the
prompt. -/
theorem Decoding.of_logits (hb : Base cfg e) (hi : i < e.sched.seqs.length) (t : Token)
    (hown : OwnPage cfg e.radix (e.seq i).blockTable (e.seq i).inputIds.length) :
    Decoding cfg ((e.modify i fun q => { q with cachedLen := q.inputIds.length }).extend i [t]) i := by
  have hm := hb.modify i (f := fun q => { q with cachedLen := q.inputIds.length })
    (fun _ => rfl) (fun _ => rfl)
  have hi' : i < (e.modify i fun q => { q with cachedLen := q.inputIds.length }).sched.seqs.length := by
    simpa [Engine.modify] using hi
  have hseq := seq_extend hi' [t]
  rw [seq_modify_self hi] at hseq
  refine ⟨hm.extend i [t],?_,?_,?_⟩
  · simpa [extend,Engine.modify] using hi
  · rw [hseq]
    exact hown
  · rw [hseq]
    simp [fromLogits]

theorem burst_calls (hb : Base cfg e) (hi : i < e.sched.seqs.length)
    (hown : OwnPage cfg e.radix (e.seq i).blockTable (nextPos (e.seq i))) {n : Nat} (hn : 0 < n) :
    (decodeBurstPagedGreedy m cfg e i n).2 = (decodeCalls m cfg i n e).2 ∧
      (decodeBurstPagedGreedy m cfg e i n).1.radix = (decodeCalls m cfg i n e).1.radix := by
  unfold decodeBurstPagedGreedy
  unfold nextPos at hown
  cases hlog : fromLogits (e.seq i) with
  | false =>
    rw [hlog] at hown
    exact burstRest_calls ⟨hb,hi,hown,hlog⟩ n
  | true =>
    rw [hlog] at hown
    obtain ⟨k,rfl⟩ := Nat.exists_eq_add_of_lt hn
    simp only [Nat.zero_add,decodeCalls,decodeOne,hlog,if_true,Nat.add_sub_cancel]
    by_cases hends : ends cfg (e.seq i) (m.stored i)
    · simp [hends]
    · cases k with
      | zero => simp [hends,decodeCalls,after]
      | succ k =>
        have hrest := burstRest_calls (m := m) (Decoding.of_logits hb hi (m.stored i) hown) (k+1)
        simp [hends,after,hrest.1,hrest.2]

end Calls

section Overwrite

/-- The page of position `pos` has other owners, and its slot does not hold the
KV that the step is going to write. -/
structure Unsafe (m : PagedModel V) (cfg : Config V) (e : Engine V) (i : SeqId) (pos : Nat) (t : Token)
    (b : BlockId) : Prop where
  within : pos%cfg.cache.blockSize ≠ 0
  page : (e.seq i).blockTable[pos/cfg.cache.blockSize]? = some b
  shared : SharedBlock e.radix b
  differs : m.kv (readKv cfg.cache e.radix (e.seq i).blockTable pos) t ≠
    e.radix.pages b (pos%cfg.cache.blockSize)

variable {b : BlockId} {t : Token}

theorem forwardPaged_slot (hb : (e.seq i).blockTable[(e.seq i).cachedLen/cfg.cache.blockSize]? = some b) :
    (forwardPaged m cfg e i t).1.radix.pages b ((e.seq i).cachedLen%cfg.cache.blockSize) =
      m.kv (readKv cfg.cache e.radix (e.seq i).blockTable (e.seq i).cachedLen) t := by
  simp [forwardPaged,Engine.modify,RadixCache.writeKv,hb]

theorem forwardPaged_other {x : BlockId}
    (hx : (e.seq i).blockTable[(e.seq i).cachedLen/cfg.cache.blockSize]? ≠ some x) :
    (forwardPaged m cfg e i t).1.radix.pages x = e.radix.pages x := by
  funext s
  simp only [forwardPaged,Engine.modify]
  refine writeKv_other _ _ _ fun j hj => ?_
  obtain rfl : j = 0 := by simpa using hj
  exact fun h => absurd h hx

theorem burstRest_overwrites (h : Unsafe m cfg e i (e.seq i).cachedLen (lastFed (e.seq i)) b) :
    ∃ u, (burstRest m cfg e i 1).2 = some [u] ∧
      (burstRest m cfg e i 1).1.radix.pages b ((e.seq i).cachedLen%cfg.cache.blockSize) ≠
        e.radix.pages b ((e.seq i).cachedLen%cfg.cache.blockSize) := by
  have htable : (e.seq i).blockTable ≠ [] := by
    intro hnil
    have := h.page
    simp [hnil] at this
  have hslot := forwardPaged_slot (m := m) (t := lastFed (e.seq i)) h.page
  have hloop : ∀ ignore, burstLoop m cfg i ignore 1 (lastFed (e.seq i)) e =
      (if ignore then (forwardPaged m cfg e i (lastFed (e.seq i))).1
        else (forwardPaged m cfg e i (lastFed (e.seq i))).1.extend i
          [(forwardPaged m cfg e i (lastFed (e.seq i))).2],
        some [(forwardPaged m cfg e i (lastFed (e.seq i))).2]) := by
    intro ignore
    simp only [burstLoop,h.within,htable,or_self,if_false]
    cases ignore with
    | true => simp [after]
    | false => simp [after]
  refine ⟨(forwardPaged m cfg e i (lastFed (e.seq i))).2,?_,?_⟩
  · rw [burstRest,hloop]
  · rw [burstRest,hloop]
    cases (e.seq i).ignoreEos with
    | true => exact fun he => h.differs (hslot.symm.trans he)
    | false => exact fun he => h.differs (hslot.symm.trans he)

theorem cow_shared {c c' : RadixCache V} {held : BlockId → Nat} {b' : BlockId}
    (ho : RadixCache.Owned cfg.cache c held) (hheld : 0 < held b) (hs : SharedBlock c b)
    (h : c.cowBlockIfShared cfg.cache b = (c',some b')) : b' ≠ b := by
  obtain ⟨r,hr,hlt⟩ := hs
  have hal := ho.allocateBlocks 1
  simp only [RadixCache.cowBlockIfShared,hr,if_neg (Nat.not_le.mpr hlt)] at h
  cases hc : c.allocateBlocks cfg.cache 1 with
  | mk c₁ o =>
    rw [hc] at hal h
    cases o with
    | none => simp at h
    | some ids =>
      obtain ⟨hal,hlen⟩ := hal
      obtain ⟨new,rfl⟩ := List.length_eq_one_iff.mp hlen
      simp only [Prod.mk.injEq,Option.some.injEq] at h
      rintro rfl
      have := (hal.fresh new (by simp)).1
      rw [h.2] at this
      omega

theorem decodeStep_keeps (hb : Base cfg e) (hi : i < e.sched.seqs.length)
    (h : Unsafe m cfg e i (e.seq i).cachedLen t b) :
    (decodeStep m cfg e i t).2 = none ∨ (decodeStep m cfg e i t).1.radix.pages b = e.radix.pages b := by
  have hlt := (List.getElem?_eq_some_iff.mp h.page).1
  have hheld : 0 < e.sched.held b := held_pos (List.mem_of_getElem? h.page)
  have hens : ensureBlocks cfg e i ((e.seq i).cachedLen+1) = (e,true) := by
    rw [ensureBlocks,pages_succ,Nat.sub_eq_zero_of_le hlt]
    rfl
  have hcow := hb.owned.cowBlockIfShared hheld
  simp only [decodeStep,enterPage,hens,cowPage,h.page]
  cases hc : e.radix.cowBlockIfShared cfg.cache b with
  | mk c' o =>
    rw [hc] at hcow
    cases o with
    | none => exact .inl rfl
    | some b' =>
      right
      have hne : b' ≠ b := cow_shared hb.owned hheld h.shared hc
      have hseq := seq_modify_self (e := { e with radix := c' }) hi
        (fun q => { q with blockTable := q.blockTable.set ((e.seq i).cachedLen/cfg.cache.blockSize) b' })
      refine (forwardPaged_other ?_).trans (hcow.pages b (Ne.symm hne) (by omega))
      rw [hseq]
      show ((e.seq i).blockTable.set ((e.seq i).cachedLen/cfg.cache.blockSize) b')[
        (e.seq i).cachedLen/cfg.cache.blockSize]? ≠ some b
      rw [List.getElem?_set_self hlt]
      simpa using hne

omit [Zero V] in
theorem other_owner (hb : Base cfg e) (hmem : b ∈ (e.seq i).blockTable) (hs : SharedBlock e.radix b) :
    (∃ j, j ≠ i ∧ b ∈ (e.seq j).blockTable) ∨ ∃ p, b ∈ e.radix.tree.blocksAt p := by
  obtain ⟨r,hr,hlt⟩ := hs
  have hcount := hb.owned.refs_eq b r hr
  by_cases htree : 0 < e.radix.tree.count b
  · exact .inr (Children.exists_blocksAt hb.owned.wf htree)
  · left
    have hi : i < e.sched.seqs.length := by
      by_contra hge
      rw [Engine.seq,Scheduler.seq_of_ge (Nat.le_of_not_lt hge)] at hmem
      simp [show (default : Sequence).blockTable = [] from rfl] at hmem
    -- without the table of `i` somebody still holds the page
    have hrest := Scheduler.held_modify e.sched (fun q => { q with blockTable := [] }) b hi
    have hone := List.nodup_iff_count_le_one.mp (hb.nodup i) b
    simp only [List.count_nil,Engine.seq] at hrest hone
    obtain ⟨j,hj⟩ := exists_table (s := e.sched.modify i fun q => { q with blockTable := [] }) (b := b)
      (by omega)
    have hji : j ≠ i := by
      rintro rfl
      rw [Scheduler.seq_modify_self hi] at hj
      simp at hj
    rw [Scheduler.seq_modify_ne hji] at hj
    exact ⟨j,hji,hj⟩

omit [Zero V] in
theorem SeenAlike.page {c c' : RadixCache V} (h : SeenAlike e i c c') (hb : Base cfg e)
    (hmem : b ∈ (e.seq i).blockTable) (hs : SharedBlock e.radix b) : c.pages b = c'.pages b := by
  rcases other_owner hb hmem hs with ⟨j,hji,hj⟩ | ⟨p,hp⟩
  · exact h.1 j hji b hj
  · exact h.2 p b hp

/-- From a shared page on, a single step of the burst is enough to be seen. -/
theorem burstRest_differs (hb : Base cfg e) (hi : i < e.sched.seqs.length)
    (hlog : fromLogits (e.seq i) = false)
    (h : Unsafe m cfg e i (e.seq i).cachedLen (lastFed (e.seq i)) b) :
    ¬ ((burstRest m cfg e i 1).2 = (decodeCalls m cfg i 1 e).2 ∧
      (burstRest m cfg e i 1).1.radix.pages b = (decodeCalls m cfg i 1 e).1.radix.pages b) := by
  rintro ⟨htoks,hpages⟩
  obtain ⟨u,hu,hover⟩ := burstRest_overwrites h
  have hkeep := decodeStep_keeps hb hi h
  rw [hpages] at hover
  rw [hu] at htoks
  simp only [decodeCalls,decodeOne,hlog] at htoks hover
  cases hstep : decodeStep m cfg e i (lastFed (e.seq i)) with
  | mk e₁ o =>
    simp only [hstep] at htoks hover hkeep
    cases o with
    | none => simp at htoks
    | some u' =>
      have hpage : e₁.radix.pages b = e.radix.pages b := hkeep.resolve_left (by simp)
      refine hover ?_
      rw [← hpage]
      simp only [Bool.false_eq_true,if_false]
      split_ifs <;> rfl

theorem not_burstAgrees (hb : Base cfg e) (hi : i < e.sched.seqs.length)
    (h : Unsafe m cfg e i (nextPos (e.seq i)) (nextFed m i (e.seq i)) b)
    (hends : fromLogits (e.seq i) = true → ends cfg (e.seq i) (m.stored i) = false) :
    ¬ BurstAgrees m cfg e i (if fromLogits (e.seq i) then 2 else 1) := by
  rintro ⟨htoks,hseen⟩
  have hpage := hseen.page hb (List.mem_of_getElem? h.page) h.shared
  unfold nextPos nextFed at h
  cases hlog : fromLogits (e.seq i) with
  | false =>
    simp only [hlog,Bool.false_eq_true,if_false,decodeBurstPagedGreedy] at h htoks hpage
    exact burstRest_differs hb hi hlog h ⟨htoks,hpage⟩
  | true =>
    simp only [hlog,if_true] at h htoks hpage
    let e₀ := (e.modify i fun q => { q with cachedLen := q.inputIds.length }).extend i [m.stored i]
    have hi' : i < (e.modify i fun q => { q with cachedLen := q.inputIds.length }).sched.seqs.length := by
      simpa [Engine.modify] using hi
    have hi₀ : i < e₀.sched.seqs.length := by simpa [e₀,extend,Engine.modify] using hi
    have hseq : e₀.seq i = { e.seq i with
        cachedLen := (e.seq i).inputIds.length, outputIds := (e.seq i).outputIds ++ [m.stored i] } := by
      refine (seq_extend hi' [m.stored i]).trans ?_
      rw [seq_modify_self hi]
    have hb₀ : Base cfg e₀ := (hb.modify i (f := fun q => { q with cachedLen := q.inputIds.length })
      (fun _ => rfl) (fun _ => rfl)).extend i [m.stored i]
    have h₀ : Unsafe m cfg e₀ i (e₀.seq i).cachedLen (lastFed (e₀.seq i)) b := by
      have hfed : lastFed (e₀.seq i) = m.stored i := by
        rw [hseq]
        simp [lastFed]
      rw [hfed]
      refine ⟨?_,?_,h.shared,?_⟩
      · rw [hseq]
        exact h.within
      · rw [hseq]
        exact h.page
      · rw [hseq]
        exact h.differs
    have hburst : decodeBurstPagedGreedy m cfg e i 2 = after (m.stored i) (burstRest m cfg e₀ i 1) := by
      simp [decodeBurstPagedGreedy,hlog,hends hlog,e₀]
    have hcalls : decodeCalls m cfg i 2 e = after (m.stored i) (decodeCalls m cfg i 1 e₀) := by
      rw [decodeCalls]
      simp only [decodeOne,hlog,if_true,hends hlog]
      rfl
    rw [hburst,hcalls] at htoks hpage
    refine burstRest_differs hb₀ hi₀ (by rw [hseq]; simp [fromLogits]) h₀ ⟨?_,hpage⟩
    exact Option.map_injective (List.cons_injective) htoks

end Overwrite

section Runs

def Grounded (cfg : Config V) (e : Engine V) : Prop := Base cfg e ∧ Scoped e

omit [Zero V] in
theorem Base.grounded (h : Base cfg e) (hpc : e.pc.todo = []) : Grounded cfg e :=
  ⟨h,by simp [Scoped,hpc]⟩

theorem Grounded.execOp {op : Op} {rest todo : List Op} {tok : Token} {raises ok : Bool}
    (h : Grounded cfg e) (hpc : e.pc.todo = op :: rest)
    (hx : Engine.execOp cfg e rest tok raises op = (e',ok,todo)) :
    Base cfg e' ∧ ∀ pc : Pc, pc.todo = todo → Grounded cfg { e' with pc := pc } := by
  have hact := h.1.execOp rest tok raises (fun i hi => h.2 op (by simp [hpc]) i hi)
  rw [hx] at hact
  refine ⟨hact.base,fun pc hpc' => ⟨hact.base.withPc pc,fun op' hop' j hj => ?_⟩⟩
  have hmem : op' ∈ (Engine.execOp cfg e rest tok raises op).2.2 := by
    rw [hx]
    exact hpc' ▸ hop'
  show j < e'.sched.seqs.length
  rw [hact.length]
  rcases todo_execOp hmem with hr | ⟨i,n,rfl,hb⟩
  · exact h.2 op' (by simp [hpc,hr]) j hj
  · rw [target_burstOps hb hj]
    exact h.2 (.burst i n) (by simp [hpc]) i rfl

omit [Zero V] in
theorem Grounded.leaveBatch {batch : List (SeqId × Bool)} {results : SeqId → Option Token}
    (h : Grounded cfg e) : Grounded cfg (leaveBatch cfg e batch results) := by
  have hpost := (h.1.withPc (.posting (batch.map fun b => (b.1,results b.1,b.2)))).grounded rfl
  unfold Engine.leaveBatch
  simp only
  split
  · rename_i i
    split
    · rename_i first _
      split_ifs with hb hextra
      · refine ⟨(h.1.extend i [first]).withPc _,fun op hop j hj => ?_⟩
        obtain rfl := List.mem_singleton.mp hop
        obtain rfl := Option.some.inj hj
        simpa [Engine.modify] using lt_of_unfinished (by simpa using hb.2)
      · exact ((h.1.extend i [first]).withPc (.bursting i [] [first])).grounded rfl
      · exact hpost
    · exact hpost
  · exact hpost

theorem Base.postOne {tok : Option Token} {pre cancelled : Bool} {prev : Text} {full : Bool}
    (h : Base cfg e) : Base cfg (postOne cfg e i tok pre cancelled prev full) := by
  unfold Engine.postOne
  cases tok with
  | none => exact h
  | some t =>
    simp only
    split_ifs with hf hc hpre
    · exact h
    · exact ((h.mark i .cancelled).1.emit full _).1
    · have hi := lt_of_unfinished (e := e) (i := i) (by simpa using hf)
      exact (((h.updateAfterPrefill hi).1.extend i [t]).applyPost _ full).1
    · exact ((h.extend i [t]).applyPost _ full).1

/-- Every step keeps the counts exact, whenever a cancel arrives. -/
theorem Grounded.step {ev : Event} (h : Grounded cfg e) (hs : e.step cfg ev = some e') :
    Grounded cfg e' := by
  cases step_moves hs with
  | addRequest hpc hr =>
    obtain ⟨q,m,ha⟩ := h.1.addRequest hr
    exact ha.base.grounded (by rw [ha.pc,hpc]; rfl)
  | @cancel r =>
    obtain ⟨hb,hend⟩ := h.1.cancelRequest r
    refine ⟨hb,fun op hop i hi => ?_⟩
    rw [pc_cancelRequest] at hop
    rw [hend.length]
    exact h.2 op hop i hi
  | step hpc hpc' =>
    refine (h.1.withQueues _ _ _).grounded ?_
    rw [hpc']
    split_ifs <;> rfl
  | check hpc =>
    exact ⟨h.1.withPc _,fun op hop i hi => lt_of_unfinished (target_runBatch hop hi).1⟩
  | call hpc hx => exact (h.execOp (by rw [hpc]; rfl) hx).2 _ rfl
  | @abort batch _ _ _ _ _ _ full _ hpc hx =>
    have hb := (h.execOp (by rw [hpc]; rfl) hx).1
    exact (hb.abortBatch full batch).1.grounded (by rw [pc_abortBatch]; rfl)
  | burstCall hpc hx => exact (h.execOp (by rw [hpc]; rfl) hx).2 _ rfl
  | burstAbort hpc hx => exact ((h.execOp (by rw [hpc]; rfl) hx).1.withPc .idle).grounded rfl
  | finishBatch hpc => exact h.leaveBatch
  | post hpc => exact (h.1.postOne.withPc _).grounded rfl
  | postDone hpc => exact (h.1.withQueues _ _ .idle).grounded rfl
  | finishBurst hpc h₁ =>
    subst h₁
    exact ((h.1.applyPost _ _).1.withQueues _ _ .idle).grounded rfl

theorem base_run {es : List Event} (h : Transition.exec (Engine.step cfg) init es = some e) : Base cfg e :=
  (Transition.exec_always (fun _ _ _ hg hs => Grounded.step hg hs)
    ((base_init cfg).grounded rfl) h : Grounded cfg e).1

/-- In every state that the engine reaches, the burst and the single decode calls
agree if the next position begins a page or falls into a page of the sequence's
own. If it falls into a shared page they disagree at once, unless the slot
happens to hold the KV already. -/
theorem burst_agrees (m : PagedModel V) (cfg : Config V) (es : List Event) (e : Engine V)
    (hrun : Transition.exec (Engine.step cfg) init es = some e) (i : SeqId)
    (hi : i < e.sched.seqs.length) :
    (OwnPage cfg e.radix (e.seq i).blockTable (nextPos (e.seq i)) →
      ∀ n, 0 < n → BurstAgrees m cfg e i n) ∧
    ∀ b, Unsafe m cfg e i (nextPos (e.seq i)) (nextFed m i (e.seq i)) b →
      (fromLogits (e.seq i) = true → ends cfg (e.seq i) (m.stored i) = false) →
        ¬ BurstAgrees m cfg e i (if fromLogits (e.seq i) then 2 else 1) := by
  have hb := base_run hrun
  refine ⟨fun hown n hn => ?_,fun b h hends => not_burstAgrees hb hi h hends⟩
  obtain ⟨htoks,hradix⟩ := burst_calls (m := m) hb hi hown hn
  refine ⟨htoks,?_,?_⟩
  · intro j _ b _
    rw [hradix]
  · intro p b _
    rw [hradix]

def tokenPages : Config Int where
  cache := ⟨4,8,pos_four,pos_eight⟩
  sched := {}
  mode := .pagedAttention
  burst := 64
  eos := none
  tk := ⟨none⟩
  kv := fun p => p.getLast?.getD 0

def sumModel : PagedModel Int := ⟨fun _ t => t,List.sum,fun _ => 7⟩

def copyThenBurst : List Event :=
  [.addRequest { requestId := "a", inputIds := [1,2] },.step,.check,
    call 0,call 0,call 7,.finishBatch,.post false [] false,.post false [] false,
    .step,.check,call 0,call 0,call 0,call 8,.finishBatch]

theorem burst_agrees_copied : ∃ e,
    Transition.exec (Engine.step tokenPages) init copyThenBurst = some e ∧
      OwnPage tokenPages e.radix (e.seq 0).blockTable (nextPos (e.seq 0)) ∧
      ∀ n, 0 < n → BurstAgrees sumModel tokenPages e 0 n := by
  have hrun : ((Transition.exec (Engine.step tokenPages) init copyThenBurst).map fun e =>
      (e.sched.seqs.length,(e.seq 0).blockTable,nextPos (e.seq 0),e.radix.refs 1)) =
        some (1,[1],3,some 1) := by
    decide +kernel
  obtain ⟨e,he,hv⟩ := Option.map_eq_some_iff.mp hrun
  simp only [Prod.mk.injEq] at hv
  obtain ⟨hlen,htab,hpos,hrefs⟩ := hv
  have hown : OwnPage tokenPages e.radix (e.seq 0).blockTable (nextPos (e.seq 0)) := by
    rw [htab,hpos]
    refine .inr (.inr ⟨1,rfl,?_⟩)
    rintro ⟨r,hr,hlt⟩
    rw [hrefs] at hr
    obtain rfl := Option.some.inj hr
    omega
  exact ⟨e,he,hown,(burst_agrees sumModel tokenPages copyThenBurst e he 0 (by simp [hlen])).1 hown⟩

def hitThenBurst : List Event :=
  [.addRequest { requestId := "a", inputIds := [1,2], maxTokens := 1 },.step,.check,
    call 0,call 0,call 7,.finishBatch,.post false [] false,.post false [] false,
    .addRequest { requestId := "b", inputIds := [1,2] },.step,.check,call 7,.finishBatch]

/-- The burst writes its first KV into the cached page. -/
theorem burst_after_hit : ∃ e, Transition.exec (Engine.step tokenPages) init hitThenBurst = some e ∧
    ¬ BurstAgrees sumModel tokenPages e 1 2 := by
  have hrun : ((Transition.exec (Engine.step tokenPages) init hitThenBurst).map fun e =>
      (e.radix.tree.blocksAt [1,2],
        (decodeBurstPagedGreedy sumModel tokenPages e 1 2).1.radix.pages 0 2,
        (decodeCalls sumModel tokenPages 1 2 e).1.radix.pages 0 2)) = some ([0],7,0) := by
    decide +kernel
  obtain ⟨e,he,hv⟩ := Option.map_eq_some_iff.mp hrun
  simp only [Prod.mk.injEq] at hv
  obtain ⟨hnode,hburst,hcalls⟩ := hv
  refine ⟨e,he,fun h => ?_⟩
  have hpage := congrFun (h.2.2 [1,2] 0 (by simp [hnode])) 2
  rw [hburst,hcalls] at hpage
  exact absurd hpage (by decide)

end Runs

end Engine

end SglangLite.Paged
