import SglangLite.Loop.Concurrent
import SglangLite.Loop.Delivery

set_option autoImplicit false

namespace SglangLite.Loop
open Kv Sched Text

variable {R : Type} {b : Backend R}

namespace Concurrent
open EngineLoop

variable {t u : Tid} {s s' : Shared R} {i : Instr} {rest code : List Instr} {now : Time}

def Instr.enters : Instr → Bool
  | .register _ => true
  | .popQueue _ _ => true
  | .noteCancel _ => true
  | .admitCheck _ => true
  | .postCheck _ _ _ => true
  | _ => false

def Balanced : Bool → List Instr → Prop
  | held, [] => held = false
  | held, .acquire :: rest => held = false ∧ rest.head?.any Instr.enters = true ∧ Balanced true rest
  | held, .release :: rest => held = true ∧ Balanced false rest
  | held, .register _ :: rest => held = true ∧ rest.head? = some .release ∧ Balanced true rest
  | held, .popQueue _ _ :: rest => held = true ∧ rest.head? = some .release ∧ Balanced true rest
  | held, .cancelSeq _ :: rest =>
      held = true ∧ (∃ r f final c, rest = .lookup r f final :: c) ∧ Balanced true rest
  | held, .noteCancel _ :: rest => held = true ∧ Balanced false rest
  | held, .admitCheck _ :: rest => held = true ∧ Balanced false rest
  | held, .postCheck _ _ _ :: rest => held = true ∧ Balanced false rest
  | held, .lookup _ _ _ :: rest => (held = true → rest.head? = some .release) ∧ Balanced held rest
  | held, _ :: rest => held = false ∧ Balanced false rest

theorem balanced_append {l : List Instr}
    (hl : ∀ i ∈ l, ∀ c, Balanced false c → Balanced false (i :: c)) (h : Balanced false rest) :
    Balanced false (l ++ rest) := by
  induction l with
  | nil => exact h
  | cons i l ih =>
    exact hl i (by simp) _ (ih fun j hj => hl j (List.mem_cons_of_mem i hj))

def Silent (t : Tid) (s : Shared R) : List Instr → Prop
  | .lookup r _ _ :: _ => s.lock = some t → s.loop.deltaQs r = none
  | .cancelSeq _ :: .lookup r _ _ :: _ => s.lock = some t → s.loop.deltaQs r = none
  | _ => True

theorem silent_of_free (h : s.lock ≠ some t) : Silent t s code := by
  unfold Silent
  split <;> first | trivial | exact fun ht => absurd ht h

structure Keeps (t : Tid) (s : Shared R) (code : List Instr) : Prop where
  balanced : Balanced (decide (s.lock = some t)) code
  silent : Silent t s code

theorem Keeps.free (hl : s.lock ≠ some t) (hb : Balanced false code) : Keeps t s code :=
  ⟨by simpa [hl] using hb,silent_of_free hl⟩

/-- The body of the cancel check does not find a queue that is still there. -/
def CheckSafe (m : Machine R) : Event → Prop
  | .tick t _ =>
      match m.code t with
      | .postCheck i _ _ :: _ =>
          (m.shared.loop.seq i).requestId ∈ m.shared.loop.cancelled →
            m.shared.loop.deltaQs (m.shared.loop.seq i).requestId = none
      | _ => True
  | .call _ => True

theorem balanced_posts (burst : Bool) (l : EngineLoop R) (batch : List (SeqId × Bool))
    (toks : List (Option Token)) (h : Balanced false rest) :
    Balanced false (posts burst b l batch toks ++ rest) := by
  have hall : Balanced false ((batch.zip toks).map (fun m => Instr.post m.1.1 m.1.2 m.2) ++
      [.dropFinished] ++ rest) := by
    rw [List.append_assoc]
    refine balanced_append (fun i hi c hc => ?_) ⟨rfl,h⟩
    obtain ⟨m,_,rfl⟩ := List.mem_map.mp hi
    exact ⟨rfl,hc⟩
  unfold posts
  simp only
  split
  · split_ifs
    · exact ⟨rfl,h⟩
    · exact hall
  · exact hall

theorem balanced_runBatch (burst : Bool) (l : EngineLoop R) (h : Balanced false rest) :
    Balanced false ((runBatch b burst l).2 ++ rest) := by
  unfold runBatch
  simp only
  split_ifs
  · exact h
  · split
    · refine balanced_append (fun i hi c hc => ?_) h
      obtain ⟨m,_,rfl⟩ := List.mem_map.mp hi
      exact ⟨rfl,hc⟩
    · exact balanced_posts burst _ _ _ h

/-- A thread that does not hold the lock executes an instruction that leaves
the lock alone. -/
theorem balanced_exec (h : exec b t s i rest now = some (s',code)) (hb : Balanced false (i :: rest))
    (ha : i ≠ .acquire) : Balanced false code := by
  cases i with
  | acquire => exact absurd rfl ha
  | release | register p | popQueue r d | cancelSeq i | noteCancel r | admitCheck p
  | postCheck i pre tok => exact absurd hb.1 (by simp)
  | submitCheck p =>
    simp only [exec] at h
    split at h <;> cases h
    · rfl
    · exact ⟨rfl,rfl,rfl,rfl,rfl,rfl,hb.2⟩
  | lookup r f final =>
    simp only [exec] at h
    split at h <;> cases h
    · exact hb.2
    · exact ⟨rfl,hb.2⟩
  | admitNext =>
    simp only [exec] at h
    split at h <;> cases h
    · exact hb.2
    · exact ⟨rfl,rfl,rfl,hb.2⟩
  | addRequest p =>
    simp only [exec] at h
    split at h <;> cases h
    · exact hb.2
    · exact ⟨by simp,hb.2⟩
  | burst i first =>
    simp only [exec] at h
    split at h <;> cases h
    · rfl
    · exact ⟨by simp,rfl,hb.2⟩
  | post i pre tok =>
    simp only [exec] at h
    split at h
    · cases h
      exact hb.2
    · split at h <;> cases h
      · exact hb.2
      · exact ⟨rfl,rfl,rfl,hb.2⟩
  | timeouts =>
    cases h
    refine balanced_append (fun i hi c hc => ?_) hb.2
    obtain ⟨r,_,rfl⟩ := List.mem_map.mp hi
    exact ⟨rfl,hc⟩
  | runStep burst =>
    cases h
    exact balanced_runBatch burst _ hb.2
  | cancelRest r had =>
    cases h
    split_ifs
    · exact ⟨by simp,hb.2⟩
    · exact hb.2
  | put d r f final =>
    cases h
    cases final with
    | true => exact ⟨rfl,rfl,rfl,rfl,rfl,rfl,hb.2⟩
    | false => exact hb.2
  | enqueue p | read d | closeSeq r | dropFinished =>
    cases h
    exact hb.2
  | expire r | abort e i | postToken i pre tok =>
    cases h
    exact ⟨by simp,hb.2⟩

theorem silent_of_release (h : rest.head? = some .release) : Silent t s rest := by
  cases rest with
  | nil => trivial
  | cons i rest =>
    obtain rfl := Option.some.inj h
    trivial

theorem silent_of_enters (h : rest.head?.any Instr.enters = true) : Silent t s rest := by
  cases rest with
  | nil => trivial
  | cons i rest => cases i <;> trivial

/-- The thread that holds the lock comes to its release without asking for the
lock again. -/
theorem Keeps.inside (h : Keeps t s (i :: rest)) (hl : s.lock = some t)
    (hg : ∀ j pre tok, i = .postCheck j pre tok →
      (s.loop.seq j).requestId ∈ s.loop.cancelled → s.loop.deltaQs (s.loop.seq j).requestId = none)
    (hx : exec b t s i rest now = some (s',code)) : Keeps t s' code := by
  obtain ⟨hb,hsil⟩ := h
  simp only [hl,decide_true] at hb
  cases i with
  | release =>
    cases hx
    exact .free (by simp) hb.2
  | register p =>
    cases hx
    exact ⟨by simpa [hl] using hb.2.2,silent_of_release hb.2.1⟩
  | popQueue r d =>
    cases hx
    exact ⟨by simpa [hl] using hb.2.2,silent_of_release hb.2.1⟩
  | cancelSeq j =>
    cases hx
    obtain ⟨_,⟨r,f,final,c,rfl⟩,hb⟩ := hb
    exact ⟨by simpa [hl] using hb,hsil⟩
  | lookup r f final =>
    -- the queue is gone, so nothing is put and nothing is removed
    simp only [exec,hsil hl,Option.some.injEq,Prod.mk.injEq] at hx
    obtain ⟨rfl,rfl⟩ := hx
    exact ⟨by simpa [hl] using hb.2,silent_of_release (hb.1 rfl)⟩
  | noteCancel r =>
    cases hx
    exact ⟨by simpa [hl,Balanced] using hb.2,trivial⟩
  | admitCheck p =>
    simp only [exec] at hx
    split at hx <;> cases hx
    · exact ⟨by simpa [hl,Balanced] using hb.2,trivial⟩
    · exact ⟨by simpa [hl,Balanced] using hb.2,trivial⟩
  | postCheck j pre tok =>
    simp only [exec] at hx
    split at hx <;> rename_i hc <;> cases hx
    · exact ⟨by simpa [hl,Balanced] using hb.2,fun _ => hg j pre tok rfl hc⟩
    · exact ⟨by simpa [hl,Balanced] using hb.2,trivial⟩
  | acquire | submitCheck p | admitNext | addRequest p | burst j first | post j pre tok | timeouts
  | runStep burst | cancelRest r had | put d r f final | enqueue p | read d | closeSeq r
  | dropFinished | expire r | abort e j | postToken j pre tok => exact absurd hb.1 (by simp)

theorem Keeps.own (h : Keeps t s (i :: rest))
    (hg : ∀ j pre tok, i = .postCheck j pre tok →
      (s.loop.seq j).requestId ∈ s.loop.cancelled → s.loop.deltaQs (s.loop.seq j).requestId = none)
    (hx : exec b t s i rest now = some (s',code)) : Keeps t s' code := by
  by_cases hl : s.lock = some t
  · exact h.inside hl hg hx
  · have hb : Balanced false (i :: rest) := by simpa [hl] using h.balanced
    by_cases ha : i = .acquire
    · subst ha
      simp only [exec] at hx
      split_ifs at hx
      cases hx
      exact ⟨by simpa using hb.2.2,silent_of_enters hb.2.1⟩
    · have hr : i ≠ .release := fun he => by
        subst he
        exact absurd hb.1 (by simp)
      exact .free (exec_lock hx ha hr ▸ hl) (balanced_exec hx hb ha)

theorem silent_congr (h : Silent t s code) (hl : s'.lock = some t → s.lock = some t)
    (hq : s'.loop.deltaQs = s.loop.deltaQs) : Silent t s' code := by
  unfold Silent at h ⊢
  split <;> first | trivial | exact fun ht => hq ▸ h (hl ht)

theorem Keeps.outside (h : Keeps t s (i :: rest)) (hl : s.lock ≠ some t) (ha : i ≠ .acquire)
    (hx : exec b t s i rest now = some (s',code)) :
    s'.lock = s.lock ∧ s'.loop.deltaQs = s.loop.deltaQs := by
  have hb : Balanced false (i :: rest) := by simpa [hl] using h.balanced
  refine ⟨exec_lock hx ha fun he => ?_,congrArg Prod.fst (exec_face hx (fun p he => ?_)
    (fun r d he => ?_))⟩
  all_goals
    subst he
    exact absurd hb.1 (by simp)

/-- Another thread does not touch the lock or the queues of a thread that holds
the lock. -/
theorem Keeps.other (h : Keeps u s rest) {c : List Instr} (ht : Keeps t s (i :: c)) (hne : u ≠ t)
    (hx : exec b t s i c now = some (s',code)) : Keeps u s' rest := by
  by_cases hl : s.lock = some t
  · have hu : s.lock ≠ some u := fun he => hne (Option.some.inj (he.symm.trans hl))
    have hu' : s'.lock ≠ some u := by
      by_cases hr : i = .release
      · subst hr
        cases hx
        simp
      · have ha : i ≠ .acquire := fun he => by
          subst he
          simp [exec,hl] at hx
        rw [exec_lock hx ha hr]
        exact hu
    exact .free hu' (by simpa [hu] using h.balanced)
  · by_cases ha : i = .acquire
    · subst ha
      simp only [exec] at hx
      split_ifs at hx with hn
      cases hx
      exact .free (by simpa using hne.symm) (by simpa [hn] using h.balanced)
    · obtain ⟨hlock,hqs⟩ := ht.outside hl ha hx
      exact ⟨hlock ▸ h.balanced,silent_congr h.silent (fun hs => hlock ▸ hs) hqs⟩

/-- A thread asks for the lock that it holds itself. -/
def SelfBlocked (m : Machine R) (t : Tid) : Prop :=
  m.shared.lock = some t ∧ ∃ rest, m.code t = .acquire :: rest

theorem Keeps.call (c : Call) (h : Keeps c.caller s []) : Keeps c.caller s c.body := by
  have hl : s.lock ≠ some c.caller := by simpa [Balanced] using h.balanced
  refine .free hl ?_
  cases c <;> simp [Call.body,Balanced,Instr.enters]

theorem keeps_step {m m' : Machine R} {e : Event} (h : Threads.Each Keeps m) (hg : CheckSafe m e)
    (hs : step b m e = some m') : Threads.Each Keeps m' := by
  refine Threads.Each.step CheckSafe (fun s c hc => hc.call c)
    (fun m t x i rest s code hm hgood hcode hx => ?_)
    (fun m t u x i rest s code hm hgood hcode hx hne => ?_) h hg hs
  · have hkeep := hm t
    rw [hcode] at hkeep
    refine hkeep.own (fun j pre tok he => ?_) hx
    simpa [CheckSafe,hcode,he] using hgood
  · have hkeep := hm t
    rw [hcode] at hkeep
    exact (hm u).other hkeep hne hx

/-- However the calls of `submit` and `cancel` interleave with the iterations of
the loop: as long as the cancel check meets no request in `_cancelled` whose
delta queue is still there, no thread asks for `_lock` while it holds it. -/
theorem never_self_blocked (b : Backend R) (r₀ : R) (es : List Event) (m : Machine R)
    (hg : Transition.Guarded (step b) CheckSafe (init r₀) es)
    (h : Transition.exec (step b) (init r₀) es = some m) : ∀ t, ¬ SelfBlocked m t := by
  have hinit : Threads.Each Keeps (init r₀ : Machine R) := fun t => .free (by simp [init]) rfl
  have hm := Transition.exec_invariant (fun m e m' hi hgood hs => keeps_step hi hgood hs) hinit hg h
  rintro t ⟨hl,rest,hc⟩
  have hb := (hm t).balanced
  rw [hc] at hb
  exact absurd hb.1 (by simp [hl])

def Doomed (t : Tid) (s : Shared R) (code : List Instr) : Prop :=
  s.lock = some t ∧ match code with
    | .cancelSeq _ :: .lookup r _ true :: _ => s.loop.deltaQs r ≠ none
    | .lookup r _ true :: _ => s.loop.deltaQs r ≠ none
    | .put _ _ _ true :: _ => True
    | .acquire :: _ => True
    | _ => False

theorem Doomed.own (h : Doomed t s (i :: rest)) (hx : exec b t s i rest now = some (s',code)) :
    Doomed t s' code := by
  obtain ⟨hl,hm⟩ := h
  split at hm
  · rename_i heq
    cases heq
    cases hx
    exact ⟨hl,hm⟩
  · rename_i r f c heq
    cases heq
    obtain ⟨d,hd⟩ := Option.ne_none_iff_exists'.mp hm
    simp only [exec,hd,Option.some.injEq,Prod.mk.injEq] at hx
    obtain ⟨rfl,rfl⟩ := hx
    exact ⟨hl,trivial⟩
  · rename_i heq
    cases heq
    cases hx
    exact ⟨hl,trivial⟩
  · rename_i heq
    cases heq
    simp [exec,hl] at hx
  · exact hm.elim

theorem Doomed.other (h : Doomed t s rest) {c : List Instr} (hu : Keeps u s (i :: c)) (hne : u ≠ t)
    (hx : exec b u s i c now = some (s',code)) : Doomed t s' rest := by
  obtain ⟨hl,hm⟩ := h
  have hl' : s.lock ≠ some u := fun he => hne (Option.some.inj (he.symm.trans hl))
  have ha : i ≠ .acquire := fun he => by
    subst he
    simp [exec,hl] at hx
  obtain ⟨hlock,hqs⟩ := hu.outside hl' ha hx
  refine ⟨hlock.trans hl,?_⟩
  rw [hqs]
  exact hm

def Rest (t u : Tid) (s : Shared R) (code : List Instr) : Prop :=
  if u = t then Doomed t s code else Keeps u s code

theorem rest_step {m m' : Machine R} {e : Event} (h : Threads.Each (Rest t) m)
    (hs : step b m e = some m') : Threads.Each (Rest t) m' := by
  refine Threads.Each.step (fun _ _ => True) (fun s c hc => ?_)
    (fun m v x i rest s code hm _ hcode hx => ?_)
    (fun m v u x i rest s code hm _ hcode hx hne => ?_) h trivial hs
  · by_cases hv : (program b).caller c = t
    · rw [Rest,if_pos hv] at hc
      exact hc.2.elim
    · rw [Rest,if_neg hv] at hc ⊢
      exact hc.call c
  · have hv := hm v
    rw [hcode,Rest] at hv
    rw [Rest]
    split_ifs at hv ⊢ with he
    · subst he
      exact hv.own hx
    · refine hv.own (fun j pre tok hi => ?_) hx
      -- another thread that makes the check would hold the lock
      subst hi
      have ht := hm t
      rw [Rest,if_pos rfl] at ht
      have hb := hv.balanced.1
      simp only [decide_eq_true_eq] at hb
      exact absurd (Option.some.inj (hb.symm.trans ht.1)) he
  · have hv := hm v
    have hu := hm u
    rw [hcode,Rest] at hv
    rw [Rest] at hu ⊢
    by_cases hut : u = t
    · subst hut
      rw [if_neg hne.symm] at hv
      rw [if_pos rfl] at hu ⊢
      exact hu.other hv hne.symm hx
    · rw [if_neg hut] at hu ⊢
      by_cases hvt : v = t
      · subst hvt
        rw [if_pos rfl] at hv
        have hl : m.shared.lock ≠ some u := fun hl => hne (Option.some.inj (hl.symm.trans hv.1))
        have hl' : s.lock ≠ some u := fun hl => hne (Option.some.inj (hl.symm.trans (hv.own hx).1))
        exact .free hl' (by simpa [hl] using hu.balanced)
      · rw [if_neg hvt] at hv
        exact hu.other hv hne hx

/-- After a check that is not safe the thread never gets further than to ask for
the lock again, whatever the other threads do. -/
theorem unsafe_check_dooms {m m₁ m₂ : Machine R} {es : List Event} (h : Threads.Each Keeps m)
    (hbad : ¬ CheckSafe m (.tick t now)) (h₁ : step b m (.tick t now) = some m₁)
    (h₂ : Transition.exec (step b) m₁ es = some m₂) : Doomed t m₂.shared (m₂.code t) := by
  obtain ⟨i,rest,s,code,hc,hx,rfl⟩ := Threads.step_tick h₁
  replace hx : exec b t m.shared i rest now = some (s,code) := hx
  have hk := h t
  rw [hc] at hk
  have hstart : Doomed t s code := by
    simp only [CheckSafe,hc] at hbad
    cases i with
    | postCheck j pre tok =>
      simp only [Classical.not_imp] at hbad
      have hb := hk.balanced.1
      simp only [exec,if_pos hbad.1,Option.some.injEq,Prod.mk.injEq] at hx
      obtain ⟨rfl,rfl⟩ := hx
      exact ⟨by simpa using hb,hbad.2⟩
    | _ => exact absurd trivial hbad
  have hrest : Threads.Each (Rest t) ({ shared := s, code := Function.update m.code t code } :
      Machine R) := by
    intro u
    rw [Rest]
    split_ifs with hu
    · subst hu
      simpa using hstart
    · simpa [hu] using (h u).other hk hu hx
  have hend := Transition.exec_always (fun m e m' hi hs => rest_step hi hs) hrest h₂
  have ht := hend t
  rwa [Rest,if_pos rfl] at ht

def checkSafe (m : Machine R) : Event → Bool
  | .tick t _ =>
      match m.code t with
      | .postCheck i _ _ :: _ =>
          decide ((m.shared.loop.seq i).requestId ∉ m.shared.loop.cancelled) ||
            (m.shared.loop.deltaQs (m.shared.loop.seq i).requestId).isNone
      | _ => true
  | .call _ => true

theorem CheckSafe.of_test {m : Machine R} {e : Event} (h : checkSafe m e = true) :
    CheckSafe m e := by
  cases e with
  | call c => trivial
  | tick t x =>
    simp only [checkSafe,CheckSafe] at h ⊢
    split
    · rename_i i pre tok rest hc
      simp only [hc,Bool.or_eq_true,decide_eq_true_eq,Option.isNone_iff_eq_none] at h
      intro hmem
      exact h.resolve_left fun hn => hn hmem
    · trivial

def ticks (t : Tid) (n : Nat) : List Event := List.replicate n (.tick t 1)

def oneBatch : List Event :=
  .call (.submit 0 (ask "a" 3).2) :: ticks (.http 0) 5 ++ .call .pumpOnce :: ticks .loop 8

theorem never_self_blocked_lateCancel : ∃ m, Transition.exec (step fives) (init ())
      (oneBatch ++ ticks .loop 8 ++ .call (.cancel 0 "a") :: ticks (.http 0) 10 ++
        .call .pumpOnce :: ticks .loop 3) = some m ∧ ∀ t, ¬ SelfBlocked m t := by
  have hrun : (Transition.exec (step fives) (init ()) (oneBatch ++ ticks .loop 8 ++
      .call (.cancel 0 "a") :: ticks (.http 0) 10 ++ .call .pumpOnce :: ticks .loop 3)).isSome ∧
      Transition.checks (step fives) checkSafe (init ()) (oneBatch ++ ticks .loop 8 ++
        .call (.cancel 0 "a") :: ticks (.http 0) 10 ++ .call .pumpOnce :: ticks .loop 3) := by
    decide +kernel
  obtain ⟨m,hm⟩ := Option.isSome_iff_exists.mp hrun.1
  exact ⟨m,hm,never_self_blocked fives () _ m
    (.of_checks (fun _ _ h => .of_test h) hrun.2) hm⟩

/-- A cancel has put the request into `_cancelled` and has not yet reached the
scheduler when the loop checks the request's first token. -/
theorem earlyCheck_self_blocks : ∃ m, Transition.exec (step fives) (init ())
      (oneBatch ++ .call (.cancel 0 "a") :: ticks (.http 0) 3 ++ ticks .loop 6) = some m ∧
    SelfBlocked m .loop := by
  have hrun : ((Transition.exec (step fives) (init ())
      (oneBatch ++ .call (.cancel 0 "a") :: ticks (.http 0) 3 ++ ticks .loop 6)).map fun m =>
        (m.shared.lock,(m.code .loop).head?)) = some (some .loop,some .acquire) := by
    decide +kernel
  obtain ⟨m,hm,hv⟩ := Option.map_eq_some_iff.mp hrun
  obtain ⟨hl,hc⟩ := Prod.mk.inj hv
  obtain ⟨rest,hr⟩ := List.head?_eq_some_iff.mp hc
  exact ⟨m,hm,hl,rest,hr⟩

end Concurrent
end SglangLite.Loop
