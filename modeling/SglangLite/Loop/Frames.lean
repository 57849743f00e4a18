import SglangLite.Loop.Locks

set_option autoImplicit false

namespace SglangLite.Loop
open Kv Sched Text

namespace Concurrent
open EngineLoop

variable {R : Type} {b : Backend R} {t u : Tid} {s s' : Shared R} {m m' : Machine R} {i : Instr}
  {rest code : List Instr} {now : Time}

def putsOn (s : Shared R) (d : QueueId) : List Frame :=
  (s.puts.filter fun x => x.1 = d).map Prod.snd

/-- The thread has looked the queue up and not yet put its frame. -/
def InHand (d : QueueId) (code : List Instr) : Prop :=
  ∃ r f final rest, code = .put d r f final :: rest

def Removing (r : RequestId) (d : QueueId) (code : List Instr) : Prop :=
  ∃ rest, code = .acquire :: .popQueue r d :: rest ∨ code = .popQueue r d :: rest

/-- A terminal frame is put only when no other thread has a frame for the queue
in hand, and a queue is looked up only when no other thread is between its
terminal frame and the removal of the queue. -/
def InTurn (m : Machine R) : Event → Prop
  | .tick t _ =>
      match m.code t with
      | .put d _ f _ :: _ => f.finishReason ≠ none → ∀ u, u ≠ t → ¬ InHand d (m.code u)
      | .lookup r _ _ :: _ => ∀ d u, m.shared.loop.deltaQs r = some d → u ≠ t →
          Removing r d (m.code u) → ∀ f ∈ putsOn m.shared d, f.finishReason = none
      | _ => True
  | .call _ => True

/-- An instruction outside a started emission. A frame with a finish reason is
always emitted as final. -/
def Instr.Calm : Instr → Prop
  | .put _ _ _ _ => False
  | .popQueue _ _ => False
  | .lookup _ f final => f.finishReason ≠ none → final = true
  | _ => True

/-- A thread is inside at most one emission, and that comes first. -/
inductive Staged : List Instr → Prop where
  | calm {c : List Instr} : (∀ i ∈ c, Instr.Calm i) → Staged c
  | put {c : List Instr} (d : QueueId) (r : RequestId) (f : Frame) (final : Bool) :
      (f.finishReason ≠ none → final = true) → (∀ i ∈ c, Instr.Calm i) →
      Staged (.put d r f final :: c)
  | remove {c : List Instr} (r : RequestId) (d : QueueId) :
      (∀ i ∈ c, Instr.Calm i) → Staged (.acquire :: .popQueue r d :: c)
  | pop {c : List Instr} (r : RequestId) (d : QueueId) :
      (∀ i ∈ c, Instr.Calm i) → Staged (.popQueue r d :: c)

theorem calm_posts (burst : Bool) (l : EngineLoop R) (batch : List (SeqId × Bool))
    (toks : List (Option Token)) : ∀ i ∈ posts burst b l batch toks, Instr.Calm i := by
  have hall : ∀ i ∈ (batch.zip toks).map (fun m => Instr.post m.1.1 m.1.2 m.2) ++
      [Instr.dropFinished], Instr.Calm i := by
    intro i hi
    rcases List.mem_append.mp hi with hi | hi
    · obtain ⟨m,_,rfl⟩ := List.mem_map.mp hi
      trivial
    · rw [List.mem_singleton.mp hi]
      trivial
  unfold posts
  simp only
  split
  · split_ifs
    · intro i hi
      rw [List.mem_singleton.mp hi]
      trivial
    · exact hall
  · exact hall

theorem calm_runBatch (burst : Bool) (l : EngineLoop R) :
    ∀ i ∈ (runBatch b burst l).2, Instr.Calm i := by
  unfold runBatch
  simp only
  split_ifs
  · simp
  · split
    · intro i hi
      obtain ⟨m,_,rfl⟩ := List.mem_map.mp hi
      trivial
    · exact calm_posts burst _ _ _

theorem terminal_final (p : Post) (q : Sequence) :
    (p.frame q).finishReason ≠ none → p.finished = true := by
  simp only [Post.frame]
  split_ifs with h
  · exact fun _ => h
  · exact fun hn => absurd rfl hn

theorem exec_calm (h : exec b t s i rest now = some (s',code)) (hc : ∀ j ∈ i :: rest, Instr.Calm j)
    (hl : ∀ r f final, i ≠ .lookup r f final) : ∀ j ∈ code, Instr.Calm j := by
  have hrest : ∀ j ∈ rest, Instr.Calm j := fun j hj => hc j (List.mem_cons_of_mem i hj)
  have happ : ∀ {l : List Instr}, (∀ j ∈ l, Instr.Calm j) → ∀ j ∈ l ++ rest, Instr.Calm j :=
    fun hl j hj => (List.mem_append.mp hj).elim (hl j) (hrest j)
  cases i with
  | lookup r f final => exact absurd rfl (hl r f final)
  | put d r f final => exact absurd (hc (.put d r f final) (by simp)) (by simp [Instr.Calm])
  | popQueue r d => exact absurd (hc (.popQueue r d) (by simp)) (by simp [Instr.Calm])
  | acquire =>
    simp only [exec] at h
    split_ifs at h
    cases h
    exact hrest
  | submitCheck p =>
    simp only [exec] at h
    split at h <;> cases h
    · simp
    · exact happ (by simp [Instr.Calm])
  | admitNext =>
    simp only [exec] at h
    split at h <;> cases h
    · exact hrest
    · exact happ (by simp [Instr.Calm])
  | admitCheck p =>
    simp only [exec] at h
    split at h <;> cases h
    · exact happ (by simp [Instr.Calm])
    · exact happ (by simp [Instr.Calm])
  | addRequest p =>
    simp only [exec] at h
    split at h <;> cases h
    · exact hrest
    · exact happ (l := [_]) (by simp [Instr.Calm])
  | burst i first =>
    simp only [exec] at h
    split at h <;> cases h
    · simp
    · exact happ (l := [_,_]) (by simpa [Instr.Calm] using terminal_final _ _)
  | post i pre tok =>
    simp only [exec] at h
    split at h
    · cases h
      exact hrest
    · split at h <;> cases h
      · exact hrest
      · exact happ (by simp [Instr.Calm])
  | postCheck i pre tok =>
    simp only [exec] at h
    split at h <;> cases h
    · exact happ (by simp [Instr.Calm])
    · exact happ (by simp [Instr.Calm])
  | timeouts =>
    cases h
    refine happ fun j hj => ?_
    obtain ⟨r,_,rfl⟩ := List.mem_map.mp hj
    trivial
  | runStep burst =>
    cases h
    exact happ (calm_runBatch burst _)
  | cancelRest r had =>
    cases h
    refine happ ?_
    split_ifs <;> simp [Instr.Calm]
  | noteCancel r =>
    cases h
    exact happ (by simp [Instr.Calm])
  | release | register p | enqueue p | read d | closeSeq r | dropFinished | cancelSeq i =>
    cases h
    exact hrest
  | expire r | abort e i =>
    cases h
    exact happ (l := [_]) (by simp [Instr.Calm])
  | postToken i pre tok =>
    cases h
    exact happ (l := [_]) (by simpa [Instr.Calm] using terminal_final _ _)

theorem exec_puts (h : exec b t s i rest now = some (s',code)) (hp : ∀ d r f final, i ≠ .put d r f final) :
    s'.puts = s.puts := by
  cases i with
  | put d r f final => exact absurd rfl (hp d r f final)
  | acquire | submitCheck p | admitCheck p | postCheck i pre tok | lookup r f final | admitNext
  | addRequest p | burst i first =>
    simp only [exec] at h
    split at h <;> cases h <;> rfl
  | post i pre tok =>
    simp only [exec] at h
    split at h
    · cases h
      rfl
    · split at h <;> cases h <;> rfl
  | release | register p | popQueue r d | postToken i pre tok | enqueue p | read d | noteCancel r
  | cancelRest r had | closeSeq r | timeouts | expire r | runStep burst | abort e i | cancelSeq i
  | dropFinished =>
    cases h
    rfl

theorem not_inHand_of_calm (h : ∀ j ∈ code, Instr.Calm j) (d : QueueId) : ¬ InHand d code := by
  rintro ⟨r,f,final,rest,rfl⟩
  exact absurd (h (.put d r f final) (by simp)) (by simp [Instr.Calm])

theorem not_removing_of_calm (h : ∀ j ∈ code, Instr.Calm j) (r : RequestId) (d : QueueId) :
    ¬ Removing r d code := by
  rintro ⟨rest,rfl | rfl⟩
  · exact absurd (h (.popQueue r d) (by simp)) (by simp [Instr.Calm])
  · exact absurd (h (.popQueue r d) (by simp)) (by simp [Instr.Calm])

def Over (s : Shared R) (d : QueueId) : Prop := ∃ f ∈ putsOn s d, f.finishReason ≠ none

/-- A queue with a terminal frame gets no other frame: nobody has one in hand,
and a request that still finds the queue is about to be removed. -/
structure Framed (m : Machine R) : Prop where
  staged : ∀ t, Staged (m.code t)
  fresh : ∀ r d, m.shared.loop.deltaQs r = some d → d < m.shared.loop.queues.length
  owner : ∀ r r' d, m.shared.loop.deltaQs r = some d → m.shared.loop.deltaQs r' = some d → r = r'
  old : ∀ x ∈ m.shared.puts, x.1 < m.shared.loop.queues.length
  hand : ∀ t d r f final rest, m.code t = .put d r f final :: rest →
    d < m.shared.loop.queues.length ∧ ∀ r', m.shared.loop.deltaQs r' = some d → r' = r
  silent : ∀ d, Over m.shared d → ∀ t, ¬ InHand d (m.code t)
  closing : ∀ d r, Over m.shared d → m.shared.loop.deltaQs r = some d →
    ∃ t, Removing r d (m.code t)
  last : ∀ d pre f post, putsOn m.shared d = pre ++ f :: post → f.finishReason ≠ none → post = []

theorem Framed.quiet (h : Framed m) (hq : s.loop.face = m.shared.loop.face)
    (hp : s.puts = m.shared.puts) (hs : Staged code) (hn : ∀ d, ¬ InHand d code)
    (hr : ∀ r d, Removing r d (m.code t) → Removing r d code) :
    Framed { shared := s, code := Function.update m.code t code } := by
  obtain ⟨hd,hl⟩ := Prod.mk.inj hq
  have hon : ∀ d, putsOn s d = putsOn m.shared d := fun d => by unfold putsOn; rw [hp]
  have hover : ∀ d, Over s d → Over m.shared d := fun d ho => by
    unfold Over at ho ⊢
    rwa [hon] at ho
  refine ⟨fun u => ?_,fun r d hx => ?_,fun r r' d hx hx' => ?_,fun x hx => ?_,
    fun u d r f final rest hu => ?_,fun d ho u => ?_,fun d r ho hx => ?_,fun d pre f post hx => ?_⟩
  · by_cases hu : u = t
    · subst hu
      simpa using hs
    · simpa [hu] using h.staged u
  · rw [hd] at hx
    rw [hl]
    exact h.fresh r d hx
  · rw [hd] at hx hx'
    exact h.owner r r' d hx hx'
  · rw [hp] at hx
    rw [hl]
    exact h.old x hx
  · by_cases ht : u = t
    · subst ht
      simp only [Function.update_self] at hu
      exact absurd ⟨r,f,final,rest,hu⟩ (hn d)
    · simp only [Function.update_of_ne ht] at hu
      rw [hd,hl]
      exact h.hand u d r f final rest hu
  · by_cases ht : u = t
    · subst ht
      simpa using hn d
    · simpa [ht] using h.silent d (hover d ho) u
  · rw [hd] at hx
    obtain ⟨u,hu⟩ := h.closing d r (hover d ho) hx
    by_cases ht : u = t
    · subst ht
      exact ⟨u,by simpa using hr r d hu⟩
    · exact ⟨u,by simpa [ht] using hu⟩
  · rw [hon] at hx
    exact h.last d pre f post hx

theorem Staged.rest_calm (h : Staged (i :: rest)) (ha : i ≠ .acquire) : ∀ j ∈ rest, Instr.Calm j := by
  cases h with
  | calm hc => exact fun j hj => hc j (List.mem_cons_of_mem i hj)
  | put d r f final _ hc => exact hc
  | remove r d hc => exact absurd rfl ha
  | pop r d hc => exact hc

theorem mem_putsOn {d : QueueId} {f : Frame} : f ∈ putsOn s d ↔ (d,f) ∈ s.puts := by
  simp only [putsOn,List.mem_map,List.mem_filter,decide_eq_true_eq]
  constructor
  · rintro ⟨⟨d',f'⟩,⟨hm,rfl⟩,rfl⟩
    exact hm
  · exact fun hm => ⟨(d,f),⟨hm,rfl⟩,rfl⟩

theorem Framed.over_lt (h : Framed m) {d : QueueId} (ho : Over m.shared d) :
    d < m.shared.loop.queues.length := by
  obtain ⟨f,hf,_⟩ := ho
  exact h.old (d,f) (mem_putsOn.mp hf)

theorem Framed.registered (h : Framed m) {p : Pending} (hc : m.code t = .register p :: rest) :
    Framed { shared := { m.shared with loop := m.shared.loop.register now p },
             code := Function.update m.code t rest } := by
  have hcalm : ∀ j ∈ rest, Instr.Calm j := by
    have hst := h.staged t
    rw [hc] at hst
    exact hst.rest_calm (by simp)
  have hdq : ∀ r d, (m.shared.loop.register now p).deltaQs r = some d →
      m.shared.loop.deltaQs r = some d ∧ d < m.shared.loop.queues.length ∨
        r = p.requestId ∧ d = m.shared.loop.queues.length := by
    intro r d hx
    simp only [register,Function.update_apply] at hx
    split_ifs at hx with hr
    · exact .inr ⟨hr,(Option.some.inj hx).symm⟩
    · exact .inl ⟨hx,h.fresh r d hx⟩
  have hlen : (m.shared.loop.register now p).queues.length = m.shared.loop.queues.length+1 := by
    simp [register]
  refine ⟨fun u => ?_,fun r d hx => ?_,fun r r' d hx hx' => ?_,fun x hx => ?_,
    fun u d r f final c hu => ?_,fun d ho u => ?_,fun d r ho hx => ?_,h.last⟩
  · by_cases hu : u = t
    · subst hu
      simpa using Staged.calm hcalm
    · simpa [hu] using h.staged u
  · simp only [hlen]
    rcases hdq r d hx with ⟨_,hlt⟩ | ⟨_,rfl⟩
    · exact Nat.lt_succ_of_lt hlt
    · exact Nat.lt_succ_self _
  · rcases hdq r d hx with ⟨hx,hlt⟩ | ⟨hr,rfl⟩
    · rcases hdq r' d hx' with ⟨hx',_⟩ | ⟨_,rfl⟩
      · exact h.owner r r' d hx hx'
      · exact absurd hlt (Nat.lt_irrefl _)
    · rcases hdq r' _ hx' with ⟨_,hlt⟩ | ⟨hr',_⟩
      · exact absurd hlt (Nat.lt_irrefl _)
      · exact hr.trans hr'.symm
  · simp only [hlen]
    exact Nat.lt_succ_of_lt (h.old x hx)
  · by_cases ht : u = t
    · subst ht
      simp only [Function.update_self] at hu
      exact absurd ⟨r,f,final,c,hu⟩ (not_inHand_of_calm hcalm d)
    · simp only [Function.update_of_ne ht] at hu
      obtain ⟨hlt,hown⟩ := h.hand u d r f final c hu
      refine ⟨by simp only [hlen]; exact Nat.lt_succ_of_lt hlt,fun r' hx => ?_⟩
      rcases hdq r' d hx with ⟨hx,_⟩ | ⟨_,rfl⟩
      · exact hown r' hx
      · exact absurd hlt (Nat.lt_irrefl _)
  · by_cases ht : u = t
    · subst ht
      simpa using not_inHand_of_calm hcalm d
    · simpa [ht] using h.silent d ho u
  · rcases hdq r d hx with ⟨hx,_⟩ | ⟨_,rfl⟩
    · obtain ⟨u,hu⟩ := h.closing d r ho hx
      have ht : u ≠ t := fun he => by
        subst he
        rw [hc] at hu
        obtain ⟨c,hu | hu⟩ := hu <;> cases hu
      exact ⟨u,by simpa [ht] using hu⟩
    · exact absurd (h.over_lt ho) (Nat.lt_irrefl _)

theorem Framed.lookedUp (h : Framed m) {r : RequestId} {f : Frame} {final : Bool} {d : QueueId}
    (hc : m.code t = .lookup r f final :: rest) (hd : m.shared.loop.deltaQs r = some d)
    (hno : ¬ Over m.shared d) {l : EngineLoop R} (hl : l.face = m.shared.loop.face) :
    Framed { shared := { m.shared with loop := l },
             code := Function.update m.code t (.put d r f final :: rest) } := by
  obtain ⟨hdq,hlen⟩ := Prod.mk.inj hl
  have hst := h.staged t
  rw [hc] at hst
  have hcalm := hst.rest_calm (by simp)
  have hfin : f.finishReason ≠ none → final = true := by
    cases hst with
    | calm hc => exact hc (.lookup r f final) (by simp)
  have hstart : ∀ d', InHand d' (.put d r f final :: rest) → d' = d := by
    rintro d' ⟨r',f',final',c,he⟩
    cases he
    rfl
  refine ⟨fun u => ?_,fun r d hx => ?_,fun r r' d hx hx' => ?_,fun x hx => ?_,
    fun u d' r' f' final' c hu => ?_,fun d' ho u => ?_,fun d' r' ho hx => ?_,h.last⟩
  · by_cases hu : u = t
    · subst hu
      simpa using Staged.put d r f final hfin hcalm
    · simpa [hu] using h.staged u
  · simp only [hdq] at hx
    simp only [hlen]
    exact h.fresh r d hx
  · simp only [hdq] at hx hx'
    exact h.owner r r' d hx hx'
  · simp only [hlen]
    exact h.old x hx
  · simp only [hdq,hlen]
    by_cases ht : u = t
    · subst ht
      simp only [Function.update_self] at hu
      cases hu
      exact ⟨h.fresh r d hd,fun r' hx => h.owner r' r d hx hd⟩
    · simp only [Function.update_of_ne ht] at hu
      exact h.hand u d' r' f' final' c hu
  · by_cases ht : u = t
    · subst ht
      simp only [Function.update_self]
      exact fun hin => hno (hstart d' hin ▸ ho)
    · simpa [ht] using h.silent d' ho u
  · simp only [hdq] at hx
    obtain ⟨u,hu⟩ := h.closing d' r' ho hx
    have ht : u ≠ t := fun he => by
      subst he
      rw [hc] at hu
      obtain ⟨c,hu | hu⟩ := hu <;> cases hu
    exact ⟨u,by simpa [ht] using hu⟩

theorem Framed.removed (h : Framed m) {r : RequestId} {d : QueueId}
    (hc : m.code t = .popQueue r d :: rest) :
    Framed { shared := { m.shared with loop := { m.shared.loop with
                deltaQs := Function.update m.shared.loop.deltaQs r none } },
             code := Function.update m.code t rest } := by
  have hst := h.staged t
  rw [hc] at hst
  have hcalm := hst.rest_calm (by simp)
  have hdq : ∀ r' d', Function.update m.shared.loop.deltaQs r none r' = some d' →
      r' ≠ r ∧ m.shared.loop.deltaQs r' = some d' := by
    intro r' d' hx
    simp only [Function.update_apply] at hx
    split_ifs at hx with hr
    exact ⟨hr,hx⟩
  refine ⟨fun u => ?_,fun r d hx => h.fresh r d (hdq r d hx).2,
    fun r r' d hx hx' => h.owner r r' d (hdq r d hx).2 (hdq r' d hx').2,h.old,
    fun u d' r' f final c hu => ?_,fun d' ho u => ?_,fun d' r' ho hx => ?_,h.last⟩
  · by_cases hu : u = t
    · subst hu
      simpa using Staged.calm hcalm
    · simpa [hu] using h.staged u
  · by_cases ht : u = t
    · subst ht
      simp only [Function.update_self] at hu
      exact absurd ⟨r',f,final,c,hu⟩ (not_inHand_of_calm hcalm d')
    · simp only [Function.update_of_ne ht] at hu
      obtain ⟨hlt,hown⟩ := h.hand u d' r' f final c hu
      exact ⟨hlt,fun r'' hx => hown r'' (hdq r'' d' hx).2⟩
  · by_cases ht : u = t
    · subst ht
      simpa using not_inHand_of_calm hcalm d'
    · simpa [ht] using h.silent d' ho u
  · obtain ⟨hr,hx⟩ := hdq r' d' hx
    obtain ⟨u,hu⟩ := h.closing d' r' ho hx
    have ht : u ≠ t := fun he => by
      subst he
      rw [hc] at hu
      obtain ⟨c,hu | hu⟩ := hu <;> cases hu
      exact hr rfl
    exact ⟨u,by simpa [ht] using hu⟩

theorem Framed.sent (h : Framed m) {r : RequestId} {f : Frame} {final : Bool} {d : QueueId}
    (hc : m.code t = .put d r f final :: rest)
    (hg : f.finishReason ≠ none → ∀ u, u ≠ t → ¬ InHand d (m.code u)) {l : EngineLoop R}
    (hl : l.face = m.shared.loop.face)
    (hcode : code = (if final then [.acquire,.popQueue r d,.release,.closeSeq r] else []) ++ rest)
    (hs : Staged code) (hn : ∀ d, ¬ InHand d code) :
    Framed { shared := { m.shared with loop := l, puts := m.shared.puts ++ [(d,f)] },
             code := Function.update m.code t code } := by
  obtain ⟨hdq,hlen⟩ := Prod.mk.inj hl
  have hst := h.staged t
  rw [hc] at hst
  have hfin : f.finishReason ≠ none → final = true := by
    cases hst with
    | calm hcalm => exact absurd (hcalm (.put d r f final) (by simp)) (by simp [Instr.Calm])
    | put _ _ _ _ hf _ => exact hf
  obtain ⟨hlt,hown⟩ := h.hand t d r f final rest hc
  have hno : ¬ Over m.shared d := fun ho => h.silent d ho t ⟨r,f,final,rest,hc⟩
  have hself : putsOn { m.shared with loop := l, puts := m.shared.puts ++ [(d,f)] } d =
      putsOn m.shared d ++ [f] := by
    simp [putsOn]
  have hne : ∀ d', d' ≠ d → putsOn { m.shared with loop := l, puts := m.shared.puts ++ [(d,f)] } d' =
      putsOn m.shared d' := by
    intro d' hd'
    simp [putsOn,Ne.symm hd']
  have hover : ∀ d', Over { m.shared with loop := l, puts := m.shared.puts ++ [(d,f)] } d' →
      d' = d ∧ f.finishReason ≠ none ∨ d' ≠ d ∧ Over m.shared d' := by
    rintro d' ⟨g,hg,hterm⟩
    by_cases hd' : d' = d
    · subst hd'
      rw [hself] at hg
      rcases List.mem_append.mp hg with hg | hg
      · exact absurd ⟨g,hg,hterm⟩ hno
      · rw [List.mem_singleton.mp hg] at hterm
        exact .inl ⟨rfl,hterm⟩
    · rw [hne d' hd'] at hg
      exact .inr ⟨hd',g,hg,hterm⟩
  refine ⟨fun u => ?_,fun r d hx => ?_,fun r r' d hx hx' => ?_,fun x hx => ?_,
    fun u d' r' f' final' c hu => ?_,fun d' ho u => ?_,fun d' r' ho hx => ?_,
    fun d' pre g post hx hterm => ?_⟩
  · by_cases hu : u = t
    · subst hu
      simpa using hs
    · simpa [hu] using h.staged u
  · simp only [hdq] at hx
    simp only [hlen]
    exact h.fresh r d hx
  · simp only [hdq] at hx hx'
    exact h.owner r r' d hx hx'
  · simp only [hlen]
    rcases List.mem_append.mp hx with hx | hx
    · exact h.old x hx
    · rw [List.mem_singleton.mp hx]
      exact hlt
  · simp only [hdq,hlen]
    by_cases ht : u = t
    · subst ht
      simp only [Function.update_self] at hu
      exact absurd ⟨r',f',final',c,hu⟩ (hn d')
    · simp only [Function.update_of_ne ht] at hu
      exact h.hand u d' r' f' final' c hu
  · by_cases ht : u = t
    · subst ht
      simpa using hn d'
    · simp only [Function.update_of_ne ht]
      rcases hover d' ho with ⟨rfl,hterm⟩ | ⟨_,ho⟩
      · exact hg hterm u ht
      · exact h.silent d' ho u
  · simp only [hdq] at hx
    rcases hover d' ho with ⟨rfl,hterm⟩ | ⟨_,ho⟩
    · refine ⟨t,?_⟩
      obtain rfl := hown r' hx
      simp only [Function.update_self,hcode,hfin hterm,if_true]
      exact ⟨[.release,.closeSeq r'] ++ rest,.inl rfl⟩
    · obtain ⟨u,hu⟩ := h.closing d' r' ho hx
      have ht : u ≠ t := fun he => by
        subst he
        rw [hc] at hu
        obtain ⟨c,hu | hu⟩ := hu <;> cases hu
      exact ⟨u,by simpa [ht] using hu⟩
  · by_cases hd' : d' = d
    · subst hd'
      rw [hself] at hx
      -- a terminal frame before the new one would have closed the queue
      rcases List.eq_nil_or_concat post with rfl | ⟨init,x,rfl⟩
      · rfl
      · rw [List.concat_eq_append,← List.cons_append,← List.append_assoc] at hx
        obtain ⟨hx,_⟩ := List.append_inj' hx rfl
        exact absurd ⟨g,by rw [hx]; simp,hterm⟩ hno
    · rw [hne d' hd'] at hx
      exact h.last d' pre g post hx hterm

theorem staged_put {r : RequestId} {final : Bool} {d : QueueId} (h : ∀ j ∈ rest, Instr.Calm j)
    (hcode : code = (if final then [.acquire,.popQueue r d,.release,.closeSeq r] else []) ++ rest) :
    Staged code ∧ ∀ d, ¬ InHand d code := by
  subst hcode
  cases final with
  | false => exact ⟨.calm h,not_inHand_of_calm h⟩
  | true =>
    refine ⟨.remove r d fun j hj => ?_,?_⟩
    · rcases List.mem_cons.mp hj with rfl | hj
      · trivial
      · rcases List.mem_cons.mp hj with rfl | hj
        · trivial
        · exact h j hj
    · rintro d' ⟨r',f',final',c,he⟩
      cases he

theorem Framed.plain (h : Framed m) (hc : m.code t = i :: rest)
    (hl : ∀ r f final, i ≠ .lookup r f final) (hp : ∀ d r f final, i ≠ .put d r f final)
    (hq : ∀ r d, i ≠ .popQueue r d) (hr : ∀ p, i ≠ .register p)
    (hx : exec b t m.shared i rest now = some (s,code)) :
    Framed { shared := s, code := Function.update m.code t code } := by
  have hface := exec_face hx hr hq
  have hputs := exec_puts hx hp
  have hst := h.staged t
  rw [hc] at hst
  generalize hall : i :: rest = all at hst
  cases hst with
  | calm hcalm =>
    have hcode := exec_calm hx (hall ▸ hcalm) hl
    refine h.quiet hface hputs (.calm hcode) (not_inHand_of_calm hcode) fun r d hrm => ?_
    rw [hc] at hrm
    exact absurd hrm (not_removing_of_calm (hall ▸ hcalm) r d)
  | put d r f final _ _ =>
    cases hall
    exact absurd rfl (hp d r f final)
  | remove r d hcalm =>
    cases hall
    simp only [exec] at hx
    split_ifs at hx
    cases hx
    refine h.quiet hface hputs (.pop r d hcalm) ?_ fun r' d' hrm => ?_
    · rintro d' ⟨r',f',final',c,he⟩
      cases he
    · rw [hc] at hrm
      obtain ⟨c,he | he⟩ := hrm <;> cases he
      exact ⟨_,.inr rfl⟩
  | pop r d _ =>
    cases hall
    exact absurd rfl (hq r d)

theorem Framed.step {e : Event} (h : Framed m) (hg : InTurn m e) (hs : step b m e = some m') :
    Framed m' := by
  cases e with
  | call c =>
    obtain ⟨hidle,rfl⟩ := Threads.step_call hs
    have hbody : ∀ j ∈ (program b).body c, Instr.Calm j := by
      cases c <;> simp [program,Call.body,Instr.Calm]
    refine h.quiet rfl rfl (.calm hbody) (not_inHand_of_calm hbody) fun r d hrm => ?_
    rw [hidle] at hrm
    obtain ⟨c,he | he⟩ := hrm <;> cases he
  | tick t x =>
    obtain ⟨i,rest,s,code,hc,hx,rfl⟩ := Threads.step_tick hs
    replace hx : exec b t m.shared i rest x = some (s,code) := hx
    simp only [InTurn,hc] at hg
    have hst := h.staged t
    rw [hc] at hst
    cases i with
    | lookup r f final =>
      simp only [exec] at hx
      cases hd : m.shared.loop.deltaQs r with
      | none =>
        simp only [hd,Option.some.injEq,Prod.mk.injEq] at hx
        obtain ⟨rfl,rfl⟩ := hx
        have hcalm := hst.rest_calm (by simp)
        refine h.quiet rfl rfl (.calm hcalm) (not_inHand_of_calm hcalm) fun r d hrm => ?_
        rw [hc] at hrm
        obtain ⟨c,he | he⟩ := hrm <;> cases he
      | some d =>
        simp only [hd,Option.some.injEq,Prod.mk.injEq] at hx
        obtain ⟨rfl,rfl⟩ := hx
        refine h.lookedUp hc hd (fun ho => ?_) rfl
        -- the thread that is about to remove the queue is another one
        obtain ⟨u,hu⟩ := h.closing d r ho hd
        obtain ⟨g,hgm,hterm⟩ := ho
        refine hterm (hg d u hd (fun he => ?_) hu g hgm)
        subst he
        rw [hc] at hu
        obtain ⟨c,hu | hu⟩ := hu <;> cases hu
    | put d r f final =>
      simp only [exec,Option.some.injEq,Prod.mk.injEq] at hx
      obtain ⟨rfl,hcode⟩ := hx
      obtain ⟨hstaged,hhand⟩ := staged_put (hst.rest_calm (by simp)) hcode.symm
      unfold Shared.put
      split_ifs with hroom
      · exact h.sent hc hg (by simp) hcode.symm hstaged hhand
      · refine h.quiet (by simp) rfl hstaged hhand fun r d hrm => ?_
        rw [hc] at hrm
        obtain ⟨c,he | he⟩ := hrm <;> cases he
    | popQueue r d =>
      cases hx
      exact h.removed hc
    | register p =>
      cases hx
      exact h.registered hc
    | acquire | release | submitCheck p | enqueue p | read d | noteCancel r | cancelRest r had | closeSeq r
    | admitNext | admitCheck p | addRequest p | timeouts | expire r | runStep burst | abort e i
    | post i pre tok | postCheck i pre tok | cancelSeq i | postToken i pre tok | burst i first
    | dropFinished =>
      exact h.plain hc (by simp) (by simp) (by simp) (by simp) hx

theorem framed_init (r₀ : R) : Framed (init r₀ : Machine R) :=
  ⟨fun _ => .calm (by simp [init]),by simp [init],by simp [init],by simp [init],by simp [init],
    by simp [init,Over,putsOn],by simp [init],by simp [init,putsOn]⟩

theorem filter_le_one {l : List Frame}
    (h : ∀ pre f post, l = pre ++ f :: post → f.finishReason ≠ none → post = []) :
    (l.filter fun f => f.finishReason.isSome).length ≤ 1 := by
  induction l with
  | nil => simp
  | cons f l ih =>
    by_cases hf : f.finishReason.isSome = true
    · rw [h [] f l rfl (Option.isSome_iff_ne_none.mp hf)]
      simp [hf]
    · rw [List.filter_cons,if_neg hf]
      exact ih fun pre g post he => h (f :: pre) g post (by rw [he]; rfl)

/-- Cancels, timeouts and the frames of the loop in any interleaving: when the
emissions of different threads for one queue take turns, a queue gets at most
one frame with a finish reason, and no frame after it. -/
theorem one_terminal_frame (b : Backend R) (r₀ : R) (es : List Event) (m : Machine R)
    (hg : Transition.Guarded (step b) InTurn (init r₀) es)
    (h : Transition.exec (step b) (init r₀) es = some m) (d : QueueId) :
    ((putsOn m.shared d).filter fun f => f.finishReason.isSome).length ≤ 1 ∧
      ∀ pre f post, putsOn m.shared d = pre ++ f :: post → f.finishReason ≠ none → post = [] := by
  have hm := Transition.exec_invariant (fun m e m' hi hgood hs => hi.step hgood hs) (framed_init r₀) hg h
  exact ⟨filter_le_one (hm.last d),hm.last d⟩

def inTurn (ts : List Tid) (m : Machine R) : Event → Bool
  | .tick t _ =>
      match m.code t with
      | .put d _ f _ :: _ => f.finishReason.isNone || ts.all fun u => decide (u = t) ||
          match m.code u with
          | .put d' _ _ _ :: _ => decide (d' ≠ d)
          | _ => true
      | .lookup _ _ _ :: _ => ts.all fun u => decide (u = t) ||
          match m.code u with
          | .acquire :: .popQueue _ _ :: _ => false
          | .popQueue _ _ :: _ => false
          | _ => true
      | _ => true
  | .call c => decide (c.caller ∈ ts)

theorem InTurn.of_test {ts : List Tid} {e : Event} (h : Threads.IdleOutside ts m)
    (hok : inTurn ts m e = true) : InTurn m e := by
  cases e with
  | call c => trivial
  | tick t x =>
    simp only [inTurn,InTurn] at hok ⊢
    split
    · rename_i d r f final rest hc
      simp only [hc,Bool.or_eq_true,Option.isNone_iff_eq_none,List.all_eq_true] at hok
      rintro hf u hu ⟨r',f',final',c,hcu⟩
      by_cases hm : u ∈ ts
      · have := (hok.resolve_left hf) u hm
        simp [hcu,hu] at this
      · rw [h u hm] at hcu
        cases hcu
    · rename_i r f final rest hc
      simp only [hc,List.all_eq_true] at hok
      rintro d u hd hu ⟨c,hcu | hcu⟩
      all_goals
        by_cases hm : u ∈ ts
        · have := hok u hm
          simp [hcu,hu] at this
        · rw [h u hm] at hcu
          cases hcu
    · trivial

def cancelAfterFrame : List Event :=
  oneBatch ++ ticks .loop 7 ++ .call (.cancel 0 "a") :: ticks (.http 0) 10 ++ ticks .loop 1

theorem one_terminal_frame_cancel : ∃ m, Transition.exec (step fives) (init ()) cancelAfterFrame =
      some m ∧ (putsOn m.shared 0).length = 2 ∧
    (((putsOn m.shared 0).filter fun f => f.finishReason.isSome).length ≤ 1 ∧
      ∀ pre f post, putsOn m.shared 0 = pre ++ f :: post → f.finishReason ≠ none → post = []) := by
  have hrun : ((Transition.exec (step fives) (init ()) cancelAfterFrame).map fun m =>
        (putsOn m.shared 0).length) = some 2 ∧
      Transition.checks (step fives) (inTurn [.loop,.http 0]) (init ()) cancelAfterFrame := by
    decide +kernel
  obtain ⟨m,hm,hlen⟩ := Option.map_eq_some_iff.mp hrun.1
  exact ⟨m,hm,hlen,one_terminal_frame fives () cancelAfterFrame m
    (.of_checks_invariant (P := Threads.IdleOutside [.loop,.http 0])
      (fun _ _ _ hi hok hs => hi.step (fun c hc => by simpa [inTurn,hc,program] using hok) hs)
      (fun _ _ hi hok => .of_test hi hok) (fun _ _ => rfl) hrun.2) hm 0⟩

/-- The loop has looked the queue up for a token when the cancel puts its
terminal frame, and puts the token after it. -/
theorem token_after_cancel : ∃ m, Transition.exec (step fives) (init ())
      (oneBatch ++ ticks .loop 6 ++ .call (.cancel 0 "a") :: ticks (.http 0) 6 ++ ticks .loop 1) =
        some m ∧
    ∃ pre f g, putsOn m.shared 0 = pre ++ [f,g] ∧ f.finishReason ≠ none := by
  have hrun : ((Transition.exec (step fives) (init ())
      (oneBatch ++ ticks .loop 6 ++ .call (.cancel 0 "a") :: ticks (.http 0) 6 ++ ticks .loop 1)).map
        fun m => (putsOn m.shared 0).map (·.finishReason)) = some [some .cancelled,none] := by
    decide +kernel
  obtain ⟨m,hm,hv⟩ := Option.map_eq_some_iff.mp hrun
  obtain ⟨f,l,hq,hf,hv⟩ := List.map_eq_cons_iff.mp hv
  obtain ⟨g,l,rfl,hg,hv⟩ := List.map_eq_cons_iff.mp hv
  obtain rfl := List.map_eq_nil_iff.mp hv
  exact ⟨m,hm,[],f,g,hq,by simp [hf]⟩

end Concurrent
end SglangLite.Loop
