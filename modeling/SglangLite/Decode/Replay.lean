import SglangLite.Decode.Graph

set_option autoImplicit false

namespace SglangLite.Decode
open Kv

def PagedDecodeCudaGraph.Recorded (g : PagedDecodeCudaGraph) : Prop :=
  ∀ r, g.graph = some r → g.captureBufGen = r.gen

namespace PagedDecodeCudaGraph

theorem recorded_reset (g : PagedDecodeCudaGraph) : g.reset.Recorded := by
  intro r h
  simp [reset] at h

variable {g g' : PagedDecodeCudaGraph} {npages maxPages : Int} {gen : Nat} {ph : Phase}

theorem Recorded.phase (h : g.Recorded) (hp : g.phase npages maxPages gen = (g',ph)) :
    g'.Recorded := by
  unfold PagedDecodeCudaGraph.phase at hp
  split_ifs at hp with hd ho
  · cases hp
    exact h
  · have hnone : g.reset.graph = none := rfl
    simp only [hnone] at hp
    split_ifs at hp
    · cases hp
      exact g.recorded_reset
    · cases hp
      exact g.recorded_reset
  · cases hg : g.graph with
    | some r =>
      simp only [hg] at hp
      cases hp
      exact h
    | none =>
      simp only [hg] at hp
      split_ifs at hp
      · cases hp
        intro r hr
        simp at hr
      · cases hp
        exact h

/-- A graph is replayed only on the buffers that it has recorded. -/
theorem Recorded.replay (h : g.Recorded) {r : Decode.Recorded}
    (hp : g.phase npages maxPages gen = (g',.replay r)) : r.gen = gen := by
  unfold PagedDecodeCudaGraph.phase at hp
  split_ifs at hp with hd ho
  · simp at hp
  · have hnone : g.reset.graph = none := rfl
    simp only [hnone] at hp
    split_ifs at hp <;> simp at hp
  · cases hg : g.graph with
    | some r' =>
      simp only [hg,Prod.mk.injEq,Phase.replay.injEq] at hp
      obtain ⟨_,rfl⟩ := hp
      have hgen := h _ hg
      simp only [hg,Option.isSome_some,true_and,outdated,not_or] at ho
      omega
    | none =>
      simp only [hg] at hp
      split_ifs at hp <;> simp at hp

theorem graph_of_phase {r : Decode.Recorded} {bufGen : Int} (hp : g.phase npages maxPages bufGen = (g',ph))
    (hr : g'.graph = some r) : g.graph = some r := by
  unfold PagedDecodeCudaGraph.phase at hp
  split_ifs at hp with hd ho
  · cases hp
    exact hr
  · have hnone : g.reset.graph = none := rfl
    simp only [hnone] at hp
    split_ifs at hp <;> cases hp <;> cases hr
  · cases hg : g.graph with
    | some r' =>
      simp only [hg] at hp
      cases hp
      exact hg.symm.trans hr
    | none =>
      simp only [hg] at hp
      split_ifs at hp
      · cases hp
        cases hr
      · cases hp
        exact absurd (hg.symm.trans hr) (by simp)

theorem graph_of_replay {r : Decode.Recorded} {bufGen : Int} (hp : g.phase npages maxPages bufGen = (g',.replay r)) :
    g.graph = some r := by
  unfold PagedDecodeCudaGraph.phase at hp
  split_ifs at hp with hd ho
  · cases hp
  · have hnone : g.reset.graph = none := rfl
    simp only [hnone] at hp
    split_ifs at hp <;> cases hp
  · cases hg : g.graph with
    | some r' =>
      simp only [hg] at hp
      cases hp
      rfl
    | none =>
      simp only [hg] at hp
      split_ifs at hp <;> cases hp

end PagedDecodeCudaGraph

namespace Runner

variable {H R L : Type} {net : Net H R L} {su : Setup} {s t : Runner R}

/-- What every reachable state has: a backend whose buffers are filled, input
buffers apart, a graph that remembers what it has recorded. -/
structure Base (s : Runner R) : Prop where
  filled : s.backend.Filled
  apart : ∀ buf pos, s.bufs = some (buf,pos) → buf ≠ pos
  recorded : s.graph.Recorded

/-- Buffers that are kept are not written over the input tensor. -/
def Safe (su : Setup) (s : Runner R) (a : Addr) : Prop :=
  su.indexed = true → ∀ buf pos, s.bufs = some (buf,pos) → a ≠ pos

theorem ensure_kept {buf pos : Addr} (hi : su.indexed = true) (hb : s.bufs = some (buf,pos))
    (held : List Addr) : s.ensure su held = (s,buf,pos) := by
  simp [ensure,hb,hi]

theorem ensure_renewed (hi : su.indexed = false) (held : List Addr) :
    s.ensure su held = s.renew su held := by
  unfold ensure
  split <;> simp [hi]

variable (su) in
theorem renew_spec (s : Runner R) (held : List Addr) : ∃ m c buf pos,
    s.renew su held = ({ s with mem := m, clock := c, bufs := some (buf,pos) },buf,pos) ∧
      buf ≠ pos ∧ m buf = 0 ∧ ∀ x ∈ held, m x = s.mem x ∧ x ≠ pos := by
  have h1 := su.alloc.fresh s.clock (held ++ s.live)
  have h2 := su.alloc.fresh (s.clock+1)
    (su.alloc.pick s.clock (held ++ s.live) :: held ++ s.live.drop 1)
  simp only [List.mem_append,not_or,List.mem_cons] at h1 h2
  refine ⟨_,_,_,_,rfl,fun h => h2.1.1 h.symm,?_,fun x hx => ?_⟩
  · rw [Function.update_of_ne (fun h => h2.1.1 h.symm),Function.update_self]
  · have hb : x ≠ su.alloc.pick s.clock (held ++ s.live) := fun h => h1.1 (h ▸ hx)
    have hp : x ≠ su.alloc.pick (s.clock+1)
        (su.alloc.pick s.clock (held ++ s.live) :: held ++ s.live.drop 1) :=
      fun h => h2.1.2 (h ▸ hx)
    exact ⟨by rw [Function.update_of_ne hp,Function.update_of_ne hb],hp⟩

variable (su) in
theorem ensure_spec (ha : ∀ buf pos, s.bufs = some (buf,pos) → buf ≠ pos) (held : List Addr) :
    ∃ m c buf pos,
      s.ensure su held = ({ s with mem := m, clock := c, bufs := some (buf,pos) },buf,pos) ∧
      buf ≠ pos ∧ ∀ x ∈ held, m x = s.mem x ∧ (Safe su s x → x ≠ pos) := by
  have hnew : ∃ m c buf pos,
      s.renew su held = ({ s with mem := m, clock := c, bufs := some (buf,pos) },buf,pos) ∧
      buf ≠ pos ∧ ∀ x ∈ held, m x = s.mem x ∧ (Safe su s x → x ≠ pos) := by
    obtain ⟨m,c,buf,pos,heq,hne,_,hx⟩ := renew_spec su s held
    exact ⟨m,c,buf,pos,heq,hne,fun x h => ⟨(hx x h).1,fun _ => (hx x h).2⟩⟩
  cases hb : s.bufs with
  | none => simpa [ensure,hb] using hnew
  | some bp =>
    obtain ⟨buf,pos⟩ := bp
    by_cases hi : su.indexed = true
    · refine ⟨s.mem,s.clock,buf,pos,?_,ha buf pos hb,fun x _ => ⟨rfl,fun h => h hi buf pos hb⟩⟩
      rw [ensure_kept hi hb,← hb]
    · simpa [ensure,hb,hi] using hnew

variable (su) in
theorem setPosition_spec (ha : ∀ buf pos, s.bufs = some (buf,pos) → buf ≠ pos) (pos : Nat)
    {a : Addr} (hs : Safe su s a) : ∃ m c buf p,
      s.setPosition su pos [a] = ({ s with mem := m, clock := c, bufs := some (buf,p) },p) ∧
      buf ≠ p ∧ a ≠ p ∧ m p = pos ∧ m a = s.mem a := by
  obtain ⟨m,c,buf,p,heq,hne,hx⟩ := ensure_spec su ha [a]
  obtain ⟨hm,hp⟩ := hx a (List.mem_singleton_self a)
  refine ⟨Function.update m p pos,c,buf,p,?_,hne,hp hs,Function.update_self _ _ _,?_⟩
  · simp only [setPosition,heq]
  · rw [Function.update_of_ne (hp hs),hm]

variable (su) in
theorem setToken_spec (ha : ∀ buf pos, s.bufs = some (buf,pos) → buf ≠ pos) (tok : Token)
    (held : List Addr) : ∃ m c buf pos,
      s.setToken su tok held = ({ s with mem := m, clock := c, bufs := some (buf,pos) },buf) ∧
      buf ≠ pos ∧ m buf = tok := by
  obtain ⟨m,c,buf,pos,heq,hne,_⟩ := ensure_spec su ha held
  refine ⟨Function.update m buf tok,c,buf,pos,?_,hne,Function.update_self _ _ _⟩
  simp only [setToken,heq]

structure Ready (su : Setup) (s : Runner R) (e : Event R L) (f : Fed R L) : Prop where
  base : Base f.state
  cells : f.state.cells = s.cells
  safe : Safe su f.state f.input
  own : s.own su e = [Row.own su.cfg f.token f.pos f.table]
  holds : s.Kept su e → f.state.mem f.input = f.token

def Loaded (su : Setup) (s : Runner R) : Prop :=
  su.indexed = true → ∀ tok, s.next = some tok →
    ∃ buf pos, s.bufs = some (buf,pos) ∧ s.mem buf = tok

theorem ready (hb : Base s) (hl : Loaded su s) {e : Event R L} {f : Fed R L}
    (h : s.feed su e = some f) : Ready su s e f := by
  unfold feed at h
  split at h
  · -- a tensor of its own
    rename_i pos tok table env
    cases h
    have ha := su.alloc.fresh s.clock s.live
    refine ⟨⟨hb.filled,hb.apart,hb.recorded⟩,rfl,?_,rfl,fun _ => Function.update_self _ _ _⟩
    intro _ buf p hbufs heq
    have hlive : s.live = [buf,p] := by simp only [live,show s.bufs = some (buf,p) from hbufs]
    exact ha (by rw [show su.alloc.pick s.clock s.live = p from heq,hlive]; simp)
  · rename_i tok pos table env
    obtain ⟨m,c,buf,p,heq,hne,hm⟩ := setToken_spec su hb.apart tok []
    simp only [heq] at h
    cases h
    refine ⟨⟨hb.filled,?_,hb.recorded⟩,rfl,?_,rfl,fun _ => hm⟩
    · intro b p' hb'
      cases hb'
      exact hne
    · intro _ b p' hb'
      cases hb'
      exact hne
  · rename_i pos table env
    cases hn : s.next with
    | none => simp [hn] at h
    | some tok =>
      simp only [hn] at h
      obtain ⟨m,c,buf,p,heq,hne,_⟩ := ensure_spec su hb.apart []
      simp only [tokenBuf,heq] at h
      have hsafe : Safe su { s with mem := m, clock := c, bufs := some (buf,p) } buf := by
        intro _ b p' hb'
        cases hb'
        exact hne
      obtain ⟨m',c',buf',p',heq',hne',hap,_,hmem⟩ := setPosition_spec su
        (s := { s with mem := m, clock := c, bufs := some (buf,p) })
        (by intro b q hbq; cases hbq; exact hne) pos hsafe
      simp only [heq'] at h
      cases h
      refine ⟨⟨hb.filled,?_,hb.recorded⟩,rfl,?_,by simp [own,hn],fun hk => hmem.trans ?_⟩
      · intro b q hbq
        cases hbq
        exact hne'
      · intro _ b q hbq
        cases hbq
        exact hap
      · cases hi : su.indexed with
        | true =>
          obtain ⟨b,q,hbq,hbt⟩ := hl hi tok hn
          rw [ensure_kept hi hbq] at heq
          obtain ⟨hs,hbuf⟩ := Prod.mk.inj heq
          rw [← (Prod.mk.inj hbuf).1,← congrArg Runner.mem hs]
          exact hbt
        | false =>
          obtain ⟨m₁,c₁,b₁,p₁,heq₁,_,hzero,_⟩ := renew_spec su s []
          rw [ensure_renewed hi,heq₁] at heq
          cases heq
          rcases hk with hk | hk
          · simp [hi] at hk
          · cases hn.symm.trans hk
            exact hzero
  · cases h

structure Planned (su : Setup) (f : Fed R L) (t : Runner R) (p : Addr) : Prop where
  base : Base t
  cells : t.cells = f.state.cells
  input : t.mem f.input = f.state.mem f.input
  position : t.mem p = f.pos
  fits : su.cfg.pages (f.pos+1) ≤ f.table.length
  reads : ∃ st m ap, t.shelf t.backend.staticBufGen = some st ∧ t.backend.metadata = some m ∧
    t.backend.appendOneLayer su.cfg f.table f.pos 1 = .ok ap ∧
    (∀ token, Row.read su.cfg token f.pos m 0 ap = Row.own su.cfg token f.pos f.table) ∧
    ∀ token, Row.read su.cfg token f.pos st.pageMetadata 0 st.appendMetadata =
      Row.own su.cfg token f.pos f.table

theorem plan_base {f : Fed R L} (hb : Base f.state) (hs : Safe su f.state f.input) {p : Addr}
    {r : Except PyError Unit}
    (h : f.state.plan su f.input f.pos f.table f.env.ceiling = (t,p,r)) : Base t := by
  obtain ⟨m,c,buf,p',heq,hne,_⟩ := setPosition_spec su hb.apart f.pos hs
  simp only [plan,heq,Prod.mk.injEq] at h
  obtain ⟨rfl,_,_⟩ := h
  refine ⟨hb.filled.beginForward _ _,?_,hb.recorded⟩
  intro b q hbq
  cases hbq
  exact hne

theorem planned {f : Fed R L} (hb : Base f.state) (hs : Safe su f.state f.input) {p : Addr}
    (h : f.state.plan su f.input f.pos f.table f.env.ceiling = (t,p,.ok ())) :
    Planned su f t p := by
  have hbase := plan_base hb hs h
  obtain ⟨m,c,buf,p',heq,_,_,hpos,hin⟩ := setPosition_spec su hb.apart f.pos hs
  simp only [plan,heq,Prod.mk.injEq] at h
  obtain ⟨rfl,rfl,hok⟩ := h
  obtain ⟨hle,st,md,ap,hst,hmd,hap,h1,h2⟩ := Backend.Filled.reads hb.filled (Prod.ext rfl hok)
  refine ⟨hbase,rfl,hin,hpos,hle,st,md,ap,?_,hmd,hap,h1,h2⟩
  simp only [onBackend,hst,Function.update_self]

theorem Base.ran (h : Base s) (cells : Cells R) (m : Addr → Int) :
    Base ({ s with cells := cells, mem := m }).leave :=
  ⟨⟨h.filled.page,h.filled.kv⟩,h.apart,h.recorded⟩

theorem Base.wrote (h : Base s) (cells : Cells R) (a : Addr) (out : Output R L) :
    Base ({ s with cells := cells }.writeNext net su a out).leave := by
  unfold writeNext
  split
  · exact h.ran cells _
  · exact h.ran cells s.mem

theorem wrote_cells (cells : Cells R) (a : Addr) (out : Output R L) :
    ({ s with cells := cells }.writeNext net su a out).leave.cells = cells := by
  unfold writeNext
  split <;> rfl

theorem Base.withGraph (h : Base s) {g : PagedDecodeCudaGraph} (hg : g.Recorded) :
    Base { s with graph := g } := ⟨h.filled,h.apart,hg⟩

theorem Base.eager (h : Base s) (input p : Addr) (pos : Nat) (table : List BlockId) :
    Base (s.eager net su input p pos table).1 := by
  unfold Runner.eager
  split
  · exact h.wrote _ _ _
  · exact h.ran s.cells s.mem

theorem Base.replay (h : Base s) (r : Recorded) : Base (s.replay net su r).1 := by
  unfold Runner.replay
  split
  · exact h.wrote _ _ _
  · exact h.ran s.cells s.mem

variable (su) in
theorem phase_recorded (h : Base s) (pos : Nat) : (s.phase su pos).1.Recorded :=
  h.recorded.phase (Prod.ext rfl rfl)

variable (net) in
theorem base_forwarded {f : Fed R L} (hb : Base f.state) (hs : Safe su f.state f.input) :
    Base (forwarded net su f).1 := by
  unfold forwarded modelForwardPaged
  cases hplan : f.state.plan su f.input f.pos f.table f.env.ceiling with
  | mk t q =>
    obtain ⟨p,r⟩ := q
    have ht := plan_base hb hs hplan
    cases r with
    | error e => exact ht
    | ok =>
      have hg := phase_recorded su ht f.pos
      cases hph : t.phase su f.pos with
      | mk g ph =>
        rw [hph] at hg
        simp only [hph]
        cases ph with
        | eager => exact (ht.withGraph hg).eager _ _ _ _
        | replay r => exact (ht.withGraph hg).replay r
        | capture =>
          simp only
          by_cases hc : f.env.captureFails = true
          · rw [if_pos hc]
            exact (ht.withGraph (PagedDecodeCudaGraph.recorded_reset _)).eager _ _ _ _
          · rw [if_neg hc]
            refine ⟨⟨ht.filled.page,ht.filled.kv⟩,ht.apart,fun r hr => ?_⟩
            cases hr
            rfl

theorem eager_faithful {f : Fed R L} {p : Addr} (h : Planned su f t p)
    (hin : f.state.mem f.input = f.token) (g : PagedDecodeCudaGraph) {s' : Runner R}
    {o : Output R L}
    (ho : ({ t with graph := g }).eager net su f.input p f.pos f.table = (s',some o)) :
    o = net.body su.cfg [Row.own su.cfg f.token f.pos f.table] f.state.cells ∧
      s'.cells = o.cells := by
  obtain ⟨st,m,ap,_,hm,hap,hread,_⟩ := h.reads
  simp only [eager,hm,hap,h.input,hin,h.position,hread,h.cells,Prod.mk.injEq,Option.some.injEq] at ho
  obtain ⟨rfl,rfl⟩ := ho
  exact ⟨rfl,wrote_cells (s := { t with graph := g }) _ _ _⟩

theorem replay_faithful {f : Fed R L} {p : Addr} (h : Planned su f t p) {r : Recorded}
    (hgen : r.gen = t.backend.staticBufGen) (htok : t.mem r.tok = f.token)
    (hpos : t.mem r.pos = f.pos) (g : PagedDecodeCudaGraph) {s' : Runner R} {o : Output R L}
    (ho : ({ t with graph := g }).replay net su r = (s',some o)) :
    o = net.body su.cfg [Row.own su.cfg f.token f.pos f.table] f.state.cells ∧
      s'.cells = o.cells := by
  obtain ⟨st,m,ap,hst,_,_,_,hread⟩ := h.reads
  simp only [replay,hgen,hst,htok,hpos,hread,h.cells,Prod.mk.injEq,Option.some.injEq] at ho
  obtain ⟨rfl,rfl⟩ := ho
  exact ⟨rfl,wrote_cells (s := { t with graph := g }) _ _ _⟩

/-- A call that fits computes what the body computes on the own row of its
sequence. -/
theorem forwarded_faithful {e : Event R L} {f : Fed R L} (hr : Ready su s e f)
    (hf : s.feed su e = some f) (hfit : s.Fits su e) {s' : Runner R} {o : Output R L}
    (ho : forwarded net su f = (s',some o)) :
    su.cfg.pages (f.pos+1) ≤ f.table.length ∧
      o = net.body su.cfg [Row.own su.cfg f.token f.pos f.table] f.state.cells ∧
      s'.cells = o.cells := by
  have hfit := hfit f hf
  unfold forwarded modelForwardPaged at ho
  cases hplan : f.state.plan su f.input f.pos f.table f.env.ceiling with
  | mk t q =>
    obtain ⟨p,r⟩ := q
    cases r with
    | error e => simp [hplan] at ho
    | ok =>
      have hp := planned hr.base hr.safe hplan
      simp only [hplan] at ho hfit
      refine ⟨hp.fits,?_⟩
      cases hph : t.phase su f.pos with
      | mk g ph =>
        simp only [hph] at ho hfit
        cases ph with
        | eager => exact eager_faithful hp (hr.holds hfit) g ho
        | replay r =>
          exact replay_faithful hp (hp.base.recorded.replay hph) hfit.1 hfit.2 g ho
        | capture =>
          simp only [hfit.1,if_true] at ho
          exact eager_faithful hp (hr.holds hfit.2) _ ho

theorem mapM_ok {A B E : Type} {f : A → Except E B} {g : A → B} {l : List A}
    (h : ∀ x ∈ l, f x = .ok (g x)) : l.mapM f = .ok (l.map g) := by
  induction l with
  | nil => rfl
  | cons x l ih =>
    rw [List.mapM_cons,h x List.mem_cons_self,ih fun y hy => h y (List.mem_cons_of_mem _ hy)]
    rfl

theorem beginForward_several {b b' : Backend} {cfg : CacheConfig} {tables : List (List BlockId)}
    {pos ceiling : Nat} (hlen : tables.length ≠ 1)
    (hok : b.beginForward ⟨cfg,tables,List.replicate tables.length pos,
      List.replicate tables.length 1,true⟩ ceiling = (b',.ok ())) :
    ∃ m, b'.metadata = some m ∧ b'.decodeFast = false ∧
      Sliced cfg (tables.map (·,pos+1)) m := by
  have htotal : List.zipWith (· + ·) (List.replicate tables.length pos)
      (List.replicate tables.length 1) = List.replicate tables.length (pos+1) := by
    simp
  have hzip : tables.zip (List.replicate tables.length (pos+1)) = tables.map (·,pos+1) := by
    clear htotal hok hlen
    induction tables with
    | nil => rfl
    | cons t tables ih => simpa [List.replicate_succ] using ih
  have hfast : (tables.length == 1) = false := by simpa using hlen
  simp only [Backend.beginForward,hfast,Bool.and_false,Bool.false_and,Backend.beginGeneral,
    PagedAttnContext.totalLens,htotal] at hok
  cases hm : Backend.pageMetadata cfg tables (List.replicate tables.length (pos+1)) with
  | error e => simp [hm] at hok
  | ok m =>
    simp only [hm,if_true,Bool.false_eq_true,if_false,Prod.mk.injEq,and_true] at hok
    subst hok
    exact ⟨m,rfl,rfl,hzip ▸ pageMetadata_sliced hm⟩

theorem batched_faithful {pos : Nat} {members : List (Token × List BlockId)} {env : Env L}
    (hlen : members.length ≠ 1) {s' : Runner R} {o : Output R L}
    (ho : s.batched net su pos members env = (s',some o)) :
    (∀ m ∈ members, su.cfg.pages (pos+1) ≤ m.2.length) ∧
      o = net.body su.cfg (members.map fun m => Row.own su.cfg m.1 pos m.2) s.cells ∧
      s'.cells = o.cells := by
  unfold batched at ho
  have htl : (members.map Prod.snd).length = members.length := List.length_map _
  cases hbr : s.backend.beginForward ⟨su.cfg,members.map Prod.snd,
      List.replicate members.length pos,List.replicate members.length 1,true⟩ env.ceiling with
  | mk b r =>
    simp only [hbr] at ho
    cases r with
    | error e => simp at ho
    | ok =>
      rw [← htl] at hbr
      obtain ⟨m,hm,hfast,hs⟩ := beginForward_several (by rwa [htl]) hbr
      have heach : ∀ i (hi : i < members.length), su.cfg.pages (pos+1) ≤ members[i].2.length ∧
          m.indptr.getD i 0+su.cfg.pages (pos+1) = m.indptr.getD (i+1) 0 ∧
          m.indptr.getD (i+1) 0 ≤ m.indices.length ∧
          m.attended i = members[i].2.take (su.cfg.pages (pos+1)) := by
        intro i hi
        exact hs.each i _ _ (by simp [hi])
      have hfit : ∀ mb ∈ members, su.cfg.pages (pos+1) ≤ mb.2.length := by
        intro mb hmb
        obtain ⟨i,hi,rfl⟩ := List.getElem_of_mem hmb
        exact (heach i hi).1
      have happ : (members.map Prod.snd).mapM (fun t => b.appendOneLayer su.cfg t pos 1) =
          .ok ((members.map Prod.snd).map fun t => Backend.slowAppend su.cfg t pos 1) := by
        refine mapM_ok fun t ht => ?_
        obtain ⟨mb,hmb,rfl⟩ := List.mem_map.mp ht
        have hl := Nat.not_lt.mpr (hfit mb hmb)
        simp only [Backend.appendOneLayer,if_neg hl,hfast,Bool.false_eq_true,false_and,if_false]
        split <;> rfl
      simp only [hm,happ,Prod.mk.injEq,Option.some.injEq] at ho
      generalize hread : List.map _ (List.zipIdx _) = rows at ho
      have hrows : rows = members.map fun mb => Row.own su.cfg mb.1 pos mb.2 := by
        subst hread
        refine List.ext_getElem (by simp) fun i h1 h2 => ?_
        have hi : i < members.length := by simpa using h2
        obtain ⟨hl,hn,_,ha⟩ := heach i hi
        simp only [List.getElem_map,List.getElem_zipIdx,List.getElem_zip,Nat.zero_add]
        refine Row.read_own _ hl ha (by omega) ?_ rfl rfl List.prefix_rfl
        rw [hs.lens]
        simp [hi]
      rw [hrows] at ho
      obtain ⟨rfl,rfl⟩ := ho
      exact ⟨hfit,rfl,rfl⟩

theorem own_slot {cfg : CacheConfig} (token : Token) {pos : Nat} {table : List BlockId}
    (h : cfg.pages (pos+1) ≤ table.length) : (Row.own cfg token pos table).slot.isSome := by
  rw [cfg.pages_succ] at h
  rw [Row.own,List.getElem?_eq_getElem (by omega)]
  rfl

variable (su) in
theorem loaded_setToken (hb : Base t) (tok : Token) (held : List Addr) :
    Base { (t.setToken su tok held).1 with next := some tok } ∧
      Loaded su { (t.setToken su tok held).1 with next := some tok } := by
  obtain ⟨m,c,buf,pos,heq,hne,hm⟩ := setToken_spec su hb.apart tok held
  rw [heq]
  refine ⟨⟨hb.filled,?_,hb.recorded⟩,fun _ tok' h => ?_⟩
  · intro b p hbp
    cases hbp
    exact hne
  · cases h
    exact ⟨buf,pos,rfl,hm⟩

theorem loaded_none : Loaded su { t with next := none } := by
  intro _ tok h
  cases h

theorem Base.withNext (h : Base t) (n : Option Token) : Base { t with next := n } :=
  ⟨h.filled,h.apart,h.recorded⟩

theorem base_batched (hb : Base s) (pos : Nat) (members : List (Token × List BlockId)) (env : Env L) :
    Base (s.batched net su pos members env).1 := by
  have hbk := hb.filled.beginForward ⟨su.cfg,members.map Prod.snd,List.replicate members.length pos,
    List.replicate members.length 1,true⟩ env.ceiling
  unfold batched
  simp only
  split
  · exact ⟨hbk,hb.apart,hb.recorded⟩
  · exact ⟨⟨hbk.page,hbk.kv⟩,hb.apart,hb.recorded⟩
  · exact ⟨⟨hbk.page,hbk.kv⟩,hb.apart,hb.recorded⟩

theorem act_cases {e : Event R L} {s' : Runner R} {out : Option (Output R L)}
    (h : s.act net su e = some (s',out)) :
    (∃ f, s.feed su e = some f ∧ (forwarded net su f).2 = out ∧
      (s' = { (forwarded net su f).1 with next := none } ∨
        ∃ tok, s' = { ((forwarded net su f).1.setToken su tok [f.input]).1 with next := some tok })) ∨
    (∃ pos members env, e = .batchDecode pos members env ∧ members.length ≠ 1 ∧
      s' = { (s.batched net su pos members env).1 with next := none } ∧
      (s.batched net su pos members env).2 = out) ∨
    (∃ tok, s' = { (s.setToken su tok []).1 with next := some tok } ∧ out = none) ∨
    (∃ c, s' = s.onBackend (s.backend.call c) ∧ out = none) ∨
    (∃ cells, s' = { s with cells := cells } ∧ out = none) ∨
    (∃ a v, a ∉ s.live ∧ s' = { s with mem := Function.update s.mem a v } ∧ out = none) := by
  cases e with
  | batchDecode pos members env =>
    simp only [act] at h
    cases hf : s.feed su (Event.batchDecode pos members env) with
    | some f =>
      simp only [hf,Option.some.injEq,Prod.mk.injEq] at h
      exact .inl ⟨f,rfl,h.2,.inl h.1.symm⟩
    | none =>
      simp only [hf] at h
      split_ifs at h with hnil
      · cases h
        exact .inr (.inr (.inr (.inr (.inl ⟨s.cells,rfl,rfl⟩))))
      · simp only [Option.some.injEq,Prod.mk.injEq] at h
        refine .inr (.inl ⟨pos,members,env,rfl,?_,h.1.symm,h.2⟩)
        intro hone
        obtain ⟨⟨tok,table⟩,rfl⟩ := List.length_eq_one_iff.mp hone
        simp [feed] at hf
  | decodeOne tok pos table env =>
    simp only [act,Option.map_eq_some_iff,Prod.mk.injEq] at h
    obtain ⟨f,hf,h⟩ := h
    exact .inl ⟨f,hf,h.2,.inl h.1.symm⟩
  | burst tok =>
    cases h
    exact .inr (.inr (.inl ⟨tok,rfl,rfl⟩))
  | burstStep pos table env =>
    obtain ⟨f,hf,h⟩ := Option.map_eq_some_iff.mp h
    refine .inl ⟨f,hf,?_⟩
    cases hfw : forwarded net su f with
    | mk t o =>
      simp only [hfw] at h
      cases o with
      | none =>
        cases h
        exact ⟨rfl,.inl rfl⟩
      | some o =>
        simp only at h
        split at h
        · cases h
          exact ⟨rfl,.inr ⟨_,rfl⟩⟩
        · cases h
          exact ⟨rfl,.inl rfl⟩
  | pages f =>
    cases h
    exact .inr (.inr (.inr (.inr (.inl ⟨_,rfl,rfl⟩))))
  | call c =>
    cases h
    exact .inr (.inr (.inr (.inl ⟨c,rfl,rfl⟩)))
  | reuse a v =>
    simp only [act] at h
    split_ifs at h with hlive
    cases h
    exact .inr (.inr (.inr (.inr (.inr ⟨a,v,hlive,rfl,rfl⟩))))

structure Sound (su : Setup) (s : Runner R) : Prop where
  base : Base s
  loaded : Loaded su s

theorem sound_init (cells : Cells R) : Sound su ({ cells := cells } : Runner R) :=
  ⟨⟨Backend.filled_fresh,by simp,by intro r h; simp at h⟩,by intro _ tok h; simp at h⟩

theorem Sound.step (h : Sound su s) {e : Event R L} {s' : Runner R}
    (hs : s.step net su e = some s') : Sound su s' := by
  obtain ⟨⟨s₁,out⟩,hact,rfl⟩ := Option.map_eq_some_iff.mp hs
  rcases act_cases hact with ⟨f,hf,_,hs'⟩ | ⟨pos,members,env,_,_,rfl,_⟩ | ⟨tok,rfl,_⟩ | ⟨c,rfl,_⟩ |
    ⟨cells,rfl,_⟩ | ⟨a,v,hlive,rfl,_⟩
  · have hr := ready h.base h.loaded hf
    have hb := base_forwarded net hr.base hr.safe
    rcases hs' with rfl | ⟨tok,rfl⟩
    · exact ⟨hb.withNext none,loaded_none⟩
    · obtain ⟨h1,h2⟩ := loaded_setToken su hb tok [f.input]
      exact ⟨h1,h2⟩
  · exact ⟨(base_batched h.base pos members env).withNext none,loaded_none⟩
  · obtain ⟨h1,h2⟩ := loaded_setToken su h.base tok []
    exact ⟨h1,h2⟩
  · exact ⟨⟨h.base.filled.call c,h.base.apart,h.base.recorded⟩,h.loaded⟩
  · exact ⟨⟨h.base.filled,h.base.apart,h.base.recorded⟩,h.loaded⟩
  · refine ⟨⟨h.base.filled,h.base.apart,h.base.recorded⟩,fun hi tok hn => ?_⟩
    obtain ⟨buf,pos,hb,hm⟩ := h.loaded hi tok hn
    refine ⟨buf,pos,hb,?_⟩
    have hne : buf ≠ a := by
      rintro rfl
      exact hlive (by simp [live,hb])
    rw [← hm]
    exact Function.update_of_ne hne _ _

theorem faithful_of_body {e : Event R L} {s' : Runner R} {o : Output R L}
    (ho : o = net.body su.cfg (s.own su e) s.cells) (hc : s'.cells = o.cells)
    (hp : ∀ r ∈ s.own su e, r.slot.isSome) : s.Faithful net su e s' o :=
  ⟨ho,hc,ho ▸ net.body_writes s.cells,hp⟩

theorem Sound.right (h : Sound su s) {e : Event R L} (hfit : s.Fits su e) : s.Right net su e := by
  intro s' o hact
  rcases act_cases hact with ⟨f,hf,hout,hs'⟩ | ⟨pos,members,env,rfl,hlen,rfl,hout⟩ | ⟨_,_,hn⟩ |
    ⟨_,_,hn⟩ | ⟨_,_,hn⟩ | ⟨_,_,_,_,hn⟩
  · have hr := ready h.base h.loaded hf
    have hrun : forwarded net su f = ((forwarded net su f).1,some o) := Prod.ext rfl hout
    obtain ⟨hle,ho,hc⟩ := forwarded_faithful hr hf hfit hrun
    refine faithful_of_body (by rw [hr.own,ho,hr.cells]) ?_ ?_
    · rcases hs' with rfl | ⟨tok,rfl⟩
      · exact hc
      · obtain ⟨m,c,buf,p,heq,_⟩ := setToken_spec su
          (base_forwarded net hr.base hr.safe).apart tok [f.input]
        rw [heq]
        exact hc
    · rw [hr.own]
      simpa using own_slot f.token hle
  · have hrun : s.batched net su pos members env = ((s.batched net su pos members env).1,some o) :=
      Prod.ext rfl hout
    obtain ⟨hle,ho,hc⟩ := batched_faithful hlen hrun
    refine faithful_of_body ho hc fun r hr => ?_
    obtain ⟨m,hm,rfl⟩ := List.mem_map.mp hr
    exact own_slot m.1 (hle m hm)
  · cases hn
  · cases hn
  · cases hn
  · cases hn

theorem act_of_feed {e : Event R L} {f : Fed R L} (hf : s.feed su e = some f) {o : Output R L}
    (ho : (forwarded net su f).2 = some o) : ∃ s', s.act net su e = some (s',some o) := by
  obtain ⟨u,hu⟩ : ∃ u, forwarded net su f = (u,some o) := ⟨_,Prod.ext rfl ho⟩
  cases e with
  | batchDecode pos members env => exact ⟨{ u with next := none },by simp only [act,hf,hu]⟩
  | decodeOne tok pos table env =>
    exact ⟨{ u with next := none },by simp only [act,hf,hu,Option.map_some]⟩
  | burstStep pos table env =>
    cases hl : o.logits with
    | nil => exact ⟨{ u with next := none },by simp only [act,hf,hu,Option.map_some,hl]⟩
    | cons l rest =>
      exact ⟨{ (u.setToken su (net.argmax l) [f.input]).1 with next := some (net.argmax l) },by
        simp only [act,hf,hu,Option.map_some,hl]⟩
  | burst tok => cases hf
  | pages f => cases hf
  | call c => cases hf
  | reuse a v => cases hf

theorem capture_wrong (h : Sound su s) {e : Event R L} {f : Fed R L} (hf : s.feed su e = some f)
    {p : Addr} (hplan : f.state.plan su f.input f.pos f.table f.env.ceiling = (t,p,.ok ()))
    {g : PagedDecodeCudaGraph} (hph : t.phase su f.pos = (g,.capture))
    (hok : f.env.captureFails = false) (hlayers : net.layers ≠ []) : ¬ s.Right net su e := by
  intro hright
  have hr := ready h.base h.loaded hf
  have hout : (forwarded net su f).2 = some ⟨[f.env.unwritten],t.cells,[]⟩ := by
    simp [forwarded,modelForwardPaged,hplan,hph,hok]
  obtain ⟨s',hact⟩ := act_of_feed hf hout
  have honce := (hright s' _ hact).once
  obtain ⟨c,hc⟩ := Option.isSome_iff_exists.mp
    (own_slot f.token (planned hr.base hr.safe hplan).fits)
  obtain ⟨layer,rest,hn⟩ := List.exists_cons_of_ne_nil hlayers
  rw [hr.own,hn,List.length_cons,List.range_succ_eq_map] at honce
  simp [hc] at honce

section Buffers

def OnBuffers (s : Runner R) : Prop := ∀ r, s.graph.graph = some r → s.bufs = some (r.tok,r.pos)

/-- The step feeds a tensor of its own, as `_batch_decode` does for one sequence;
`_decode_one` and the greedy bursts feed the buffer. -/
def OwnTensor : Event R L → Prop
  | .batchDecode _ [_] _ => True
  | _ => False

variable (su s) in
def Captures (e : Event R L) : Prop :=
  ∃ f t p g, s.feed su e = some f ∧ f.state.plan su f.input f.pos f.table f.env.ceiling = (t,p,.ok ()) ∧
    t.phase su f.pos = (g,.capture) ∧ f.env.captureFails = false

theorem ensure_buffers (hi : su.indexed = true) (h : OnBuffers s) (held : List Addr) {buf pos : Addr}
    (hs : s.ensure su held = (t,buf,pos)) : OnBuffers t ∧ t.bufs = some (buf,pos) ∧ t.graph = s.graph := by
  cases hb : s.bufs with
  | some bp =>
    obtain ⟨b,p⟩ := bp
    rw [ensure_kept hi hb] at hs
    cases hs
    exact ⟨h,hb,rfl⟩
  | none =>
    -- without buffers nothing has been recorded
    have hnone : s.graph.graph = none := by
      cases hg : s.graph.graph with
      | none => rfl
      | some r => exact absurd (hb.symm.trans (h r hg)) (by simp)
    have hs' : s.ensure su held = s.renew su held := by unfold ensure; rw [hb]
    obtain ⟨m,c,buf',pos',heq,_⟩ := renew_spec su s held
    rw [hs',heq] at hs
    cases hs
    exact ⟨fun r hr => absurd (hnone.symm.trans hr) (by simp),rfl,rfl⟩

theorem setToken_buffers (hi : su.indexed = true) (h : OnBuffers s) (tok : Token) (held : List Addr) :
    OnBuffers (s.setToken su tok held).1 ∧
      ∃ pos, (s.setToken su tok held).1.bufs = some ((s.setToken su tok held).2,pos) := by
  cases hs : s.ensure su held with
  | mk t bp =>
    obtain ⟨buf,pos⟩ := bp
    obtain ⟨hg,hb,_⟩ := ensure_buffers hi h held hs
    simp only [setToken,hs]
    exact ⟨hg,pos,hb⟩

theorem setPosition_buffers (hi : su.indexed = true) (h : OnBuffers s) {buf p : Addr}
    (hb : s.bufs = some (buf,p)) (pos : Nat) (held : List Addr) :
    OnBuffers (s.setPosition su pos held).1 ∧ (s.setPosition su pos held).1.bufs = some (buf,p) ∧
      (s.setPosition su pos held).2 = p := by
  simp only [setPosition,ensure_kept hi hb]
  exact ⟨h,hb,trivial⟩

theorem feed_buffers (hi : su.indexed = true) (h : OnBuffers s) {e : Event R L} (he : ¬ OwnTensor e)
    {f : Fed R L} (hf : s.feed su e = some f) :
    OnBuffers f.state ∧ ∃ p, f.state.bufs = some (f.input,p) := by
  unfold feed at hf
  split at hf
  · exact absurd trivial he
  · rename_i pos tok table env
    cases hf
    exact setToken_buffers hi h pos []
  · rename_i pos table env
    cases hn : s.next with
    | none => rw [hn] at hf; cases hf
    | some tok =>
      cases hs : s.ensure su [] with
      | mk t bp =>
        obtain ⟨buf,p⟩ := bp
        have htok : s.tokenBuf su [] = (t,buf) := by simp only [tokenBuf,hs]
        obtain ⟨hg,hb,_⟩ := ensure_buffers hi h [] hs
        obtain ⟨hg',hb',_⟩ := setPosition_buffers hi hg hb pos [buf]
        simp only [hn,htok] at hf
        cases hf
        exact ⟨hg',p,hb'⟩
  · cases hf

theorem feed_onBuffers (hi : su.indexed = true) (h : OnBuffers s) {e : Event R L} {f : Fed R L}
    (hf : s.feed su e = some f) : OnBuffers f.state := by
  by_cases he : OwnTensor e
  · cases e with
    | batchDecode pos members env =>
      obtain ⟨⟨tok,table⟩,rfl⟩ : ∃ m, members = [m] := by
        match members, he with
        | [m], _ => exact ⟨m,rfl⟩
      cases hf
      exact h
    | _ => exact absurd he id
  · exact (feed_buffers hi h he hf).1

theorem plan_buffers (hi : su.indexed = true) {f : Fed R L} (h : OnBuffers f.state) {p : Addr}
    (hb : f.state.bufs = some (f.input,p)) {q : Addr} {r : Except PyError Unit}
    (hplan : f.state.plan su f.input f.pos f.table f.env.ceiling = (t,q,r)) :
    OnBuffers t ∧ t.bufs = some (f.input,p) ∧ q = p := by
  obtain ⟨hg,hb',hp⟩ := setPosition_buffers hi h hb f.pos [f.input]
  simp only [plan,Prod.mk.injEq] at hplan
  obtain ⟨rfl,rfl,_⟩ := hplan
  exact ⟨hg,hb',hp⟩

/-- On a device with an index, a step of `_decode_one` or of a greedy burst fits
when the graph is recorded on the buffers, unless it captures one itself. -/
theorem fits_buffers (h : Sound su s) (hi : su.indexed = true) (hg : OnBuffers s) {e : Event R L}
    (he : ¬ OwnTensor e) (hcap : ¬ s.Captures su e) : s.Fits su e := by
  intro f hf
  have hkept : s.Kept su e := by
    cases e with
    | burstStep pos table env => exact .inl hi
    | _ => trivial
  have hr := ready h.base h.loaded hf
  obtain ⟨hon,p,hb⟩ := feed_buffers hi hg he hf
  split
  · trivial
  · rename_i t q hplan
    obtain ⟨hont,hbt,rfl⟩ := plan_buffers hi hon hb hplan
    have hp := planned hr.base hr.safe hplan
    cases hph : t.phase su f.pos with
    | mk g ph =>
      cases ph with
      | eager => exact hkept
      | capture =>
        refine ⟨?_,hkept⟩
        by_contra hfail
        exact hcap ⟨f,t,_,g,hf,hplan,hph,Bool.not_eq_true _ ▸ hfail⟩
      | replay r =>
        -- what is replayed reads the two buffers, which hold the step's own token and position
        have hrec := hont r (PagedDecodeCudaGraph.graph_of_replay hph)
        rw [hbt] at hrec
        obtain ⟨htok,hpos⟩ := Prod.mk.inj (Option.some.inj hrec)
        exact ⟨(congrArg t.mem htok.symm).trans (hp.input.trans (hr.holds hkept)),
          (congrArg t.mem hpos.symm).trans hp.position⟩

theorem plan_onBuffers (hi : su.indexed = true) {f : Fed R L} (h : OnBuffers f.state) {q : Addr}
    {r : Except PyError Unit}
    (hplan : f.state.plan su f.input f.pos f.table f.env.ceiling = (t,q,r)) : OnBuffers t := by
  cases hs : f.state.ensure su [f.input] with
  | mk u bp =>
    obtain ⟨hg,_,_⟩ := ensure_buffers hi h [f.input] hs
    simp only [plan,setPosition,hs,Prod.mk.injEq] at hplan
    obtain ⟨rfl,_,_⟩ := hplan
    exact hg

theorem OnBuffers.wrote (h : OnBuffers s) (cells : Cells R) (a : Addr) (out : Output R L) :
    OnBuffers ({ s with cells := cells }.writeNext net su a out).leave := by
  unfold writeNext
  split <;> exact h

variable (net) in
theorem forwarded_buffers (hi : su.indexed = true) {f : Fed R L} (h : OnBuffers f.state)
    (hcap : ∀ t p g, f.state.plan su f.input f.pos f.table f.env.ceiling = (t,p,.ok ()) →
      t.phase su f.pos = (g,.capture) → f.env.captureFails = false → ∃ p, f.state.bufs = some (f.input,p)) :
    OnBuffers (forwarded net su f).1 := by
  unfold forwarded modelForwardPaged
  cases hplan : f.state.plan su f.input f.pos f.table f.env.ceiling with
  | mk t q =>
    obtain ⟨p,r⟩ := q
    have ht := plan_onBuffers hi h hplan
    cases r with
    | error e => exact ht
    | ok =>
      cases hph : t.phase su f.pos with
      | mk g ph =>
        have hg : OnBuffers { t with graph := g } := fun r hr =>
          ht r (PagedDecodeCudaGraph.graph_of_phase hph hr)
        simp only [hph]
        cases ph with
        | eager =>
          simp only [Runner.eager]
          split
          · exact hg.wrote _ _ _
          · exact hg
        | replay r =>
          simp only [Runner.replay]
          split
          · exact hg.wrote _ _ _
          · exact hg
        | capture =>
          simp only
          by_cases hc : f.env.captureFails = true
          · have hreset : OnBuffers { t with graph := { g with disabled := true }.reset } := fun r hr => nomatch hr
            rw [if_pos hc]
            simp only [Runner.eager]
            split
            · exact hreset.wrote _ _ _
            · exact hreset
          · obtain ⟨p',hb⟩ := hcap t p g hplan hph (Bool.not_eq_true _ ▸ hc)
            obtain ⟨_,hbt,rfl⟩ := plan_buffers hi h hb hplan
            rw [if_neg hc]
            intro r hr
            cases hr
            exact hbt

/-- A step keeps the graph on the buffers, unless `_batch_decode` captures one on
the tensor of its own. -/
theorem OnBuffers.step (hi : su.indexed = true) (h : OnBuffers s) {e : Event R L}
    (he : OwnTensor e → ¬ s.Captures su e) {s' : Runner R} (hs : s.step net su e = some s') : OnBuffers s' := by
  obtain ⟨⟨s₁,out⟩,hact,rfl⟩ := Option.map_eq_some_iff.mp hs
  rcases act_cases hact with ⟨f,hf,_,hs'⟩ | ⟨pos,members,env,_,_,rfl,_⟩ | ⟨tok,rfl,_⟩ | ⟨c,rfl,_⟩ |
    ⟨cells,rfl,_⟩ | ⟨a,v,hlive,rfl,_⟩
  · have hon : OnBuffers (forwarded net su f).1 := by
      by_cases hown : OwnTensor e
      · refine forwarded_buffers net hi (feed_onBuffers hi h hf) fun t p g hplan hph hfail => ?_
        exact absurd ⟨f,t,p,g,hf,hplan,hph,hfail⟩ (he hown)
      · obtain ⟨hon,hb⟩ := feed_buffers hi h hown hf
        exact forwarded_buffers net hi hon fun _ _ _ _ _ _ => hb
    rcases hs' with rfl | ⟨tok,rfl⟩
    · exact hon
    · exact (setToken_buffers hi hon tok [f.input]).1
  · unfold batched
    simp only
    split <;> exact h
  · exact (setToken_buffers hi h tok []).1
  · exact h
  · exact h
  · exact h

/-- On a device with an index every step of `_decode_one` and of the greedy
bursts that does not capture is right, in every run in which `_batch_decode`
captures no graph for one sequence. -/
theorem buffered_decode (hi : su.indexed = true) {cells : Cells R} {es : List (Event R L)} {e : Event R L}
    (hrun : Transition.exec (step net su) ({ cells := cells } : Runner R) es = some s)
    (hes : Transition.Guarded (step net su) (fun s e => OwnTensor e → ¬ s.Captures su e) { cells := cells } es)
    (he : ¬ OwnTensor e) (hcap : ¬ s.Captures su e) : s.Right net su e := by
  have hsound : Sound su s := Transition.exec_always (fun _ _ _ h hs => h.step hs) (sound_init cells) hrun
  have hinit : OnBuffers ({ cells := cells } : Runner R) := fun r hr => nomatch hr
  have hon : OnBuffers s := Transition.exec_invariant (fun _ _ _ h hg hs => h.step hi hg hs) hinit hes hrun
  exact hsound.right (fits_buffers hsound hi hon he hcap)

end Buffers

/-- After any run, a step that fits returns the logits of the body on its own
token, position and page table, and appends that token's keys and values once
in every layer at its position. -/
theorem graph_decode {cells : Cells R} {es : List (Event R L)} {e : Event R L}
    (hrun : Transition.exec (step net su) ({ cells := cells } : Runner R) es = some s)
    (hfit : s.Fits su e) : s.Right net su e :=
  (Transition.exec_always (fun _ _ _ h hs => h.step hs) (sound_init cells) hrun).right hfit

def keptTest (su : Setup) (s : Runner R) : Event R L → Bool
  | .burstStep .. => su.indexed || s.next == some 0
  | _ => true

theorem Kept.of_test {e : Event R L} (h : keptTest su s e = true) : s.Kept su e := by
  cases e with
  | burstStep pos table env => simpa [keptTest,Kept] using h
  | _ => trivial

def fitsTest (su : Setup) (s : Runner R) (e : Event R L) : Bool :=
  match s.feed su e with
  | none => true
  | some f =>
      match f.state.plan su f.input f.pos f.table f.env.ceiling with
      | (_,_,.error _) => true
      | (t,_,.ok ()) =>
          match (t.phase su f.pos).2 with
          | .eager => keptTest su s e
          | .capture => f.env.captureFails && keptTest su s e
          | .replay r => t.mem r.tok == f.token && t.mem r.pos == f.pos

theorem Fits.of_test {e : Event R L} (h : fitsTest su s e = true) : s.Fits su e := by
  intro f hf
  simp only [fitsTest,hf] at h
  split
  · trivial
  · rename_i t p hplan
    simp only [hplan] at h
    split
    · rename_i hph
      simp only [hph] at h
      exact Kept.of_test h
    · rename_i hph
      simp only [hph,Bool.and_eq_true] at h
      exact ⟨h.1,Kept.of_test h.2⟩
    · rename_i r hph
      simpa only [hph,Bool.and_eq_true,beq_iff_eq] using h

def above : Allocator where
  pick _ live := live.sum+1
  fresh _ live h := by
    have := List.single_le_sum (fun _ _ => Nat.zero_le _) _ h
    omega

def adder : Net Int Int Int where
  embed := id
  layers := [⟨fun h p => h+p,fun h _ l => h+l.sum⟩]
  lmHead := id
  argmax := id

def cuda0 : Setup := ⟨Backend.pairs,above,true,true⟩

def warmups : List (Event Int Int) :=
  [.decodeOne 5 0 [3] ⟨8,false,0⟩,.decodeOne 6 1 [3] ⟨8,false,0⟩]

theorem capture_enabled : (Transition.exec (step adder cuda0) ({ cells := fun _ _ _ => 0 } : Runner Int)
    (warmups ++ [.decodeOne 7 2 [3,4] ⟨8,false,0⟩])).isSome = true := by
  decide +kernel

theorem graph_decode_replay : ∃ s, Transition.exec (step adder cuda0) { cells := fun _ _ _ => 0 }
    (warmups ++ [.decodeOne 7 2 [3,4] ⟨8,false,0⟩]) = some s ∧
      s.Right adder cuda0 (.decodeOne 8 3 [3,4] ⟨8,false,0⟩) := by
  have hfit : fitsTest cuda0 (Option.get _ capture_enabled)
      (.decodeOne 8 3 [3,4] ⟨8,false,(0 : Int)⟩) = true := by decide +kernel
  exact ⟨_,(Option.some_get _).symm,
    graph_decode (Option.some_get capture_enabled).symm (Fits.of_test hfit)⟩

/-- The third step captures: it returns logits that nothing has computed, and
its token's keys and values are not appended. -/
theorem captured_step_lost : ¬ ∀ (es : List (Event Int Int)) (s : Runner Int) (e : Event Int Int),
    Transition.exec (step adder cuda0) { cells := fun _ _ _ => 0 } es = some s →
      s.Right adder cuda0 e := by
  intro h
  have hright := h warmups _ (.decodeOne 7 2 [3,4] ⟨8,false,0⟩) rfl
  exact absurd (hright _ _ rfl).once (by decide)

end Runner

end SglangLite.Decode
