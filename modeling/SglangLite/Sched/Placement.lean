import SglangLite.Sched.Races

set_option autoImplicit false

namespace SglangLite.Sched.Races
open Kv

/-- Another thread that has read `self.waiting` and not yet assigned it still
iterates over the same deque, so that it notices a mutation. -/
def Notices (s : Shared) : List Instr → Prop
  | .build _ d _ _ _ :: _ => d = s.waiting
  | .assignWaiting _ _ :: _ => False
  | _ => True

def NotPassed (s : Shared) (i : SeqId) : List Instr → Prop
  | .scanIds _ k _ :: _ => i ∉ s.running.take k
  | .scanLive k _ :: _ => i ∉ s.running.take k
  | _ => True

/-- A request is appended to `self.waiting` or taken from it only when no other
thread holds a copy of it, it is taken only from the deque that is
`self.waiting`, and nothing is removed from `running` behind an iteration. -/
def Undisturbed (cfg : SchedConfig) (m : Machine) : Event → Prop
  | .call _ => True
  | .tick t _ =>
      match m.code t with
      | .append _ _ :: _ => ∀ u, u ≠ t → Notices m.shared (m.code u)
      | .formWaiting d batch budget :: _ =>
          ∀ i pre cost, next cfg m.shared d batch budget = .take i pre cost →
            d = m.shared.waiting ∧ ∀ u, u ≠ t → Notices m.shared (m.code u)
      | .removeRunning i :: _ => ∀ u, u ≠ t → NotPassed m.shared i (m.code u)
      | _ => True

section Invariant

variable {cfg : SchedConfig} {s s' : Shared} {t u : Tid} {i : Instr} {rest code : List Instr}

def load (s : Shared) (j : SeqId) : Nat := s.running.count j+s.held.count j

/-- With `c` as the waiting queue, every unfinished sequence has at most one
place, and exactly one unless it is being cancelled. -/
def Placed (s : Shared) (c : List SeqId) : Prop :=
  ∀ j, (s.seq j).finished = false →
    c.count j+load s j ≤ 1 ∧ ((s.seq j).cancelled = false → c.count j+load s j = 1)

def NoneHeld (s : Shared) : Prop := ∀ j, (s.seq j).finished = false → s.held.count j = 0

structure Base (s : Shared) : Prop where
  placed : Placed s s.queue
  waiting : s.waiting < s.deques.length
  inDeque : ∀ d, ∀ j ∈ (s.deque d).items, j < s.seqs.length
  inRunning : ∀ j ∈ s.running, j < s.seqs.length
  inHeld : ∀ j ∈ s.held, j < s.seqs.length
  batches : ∀ b ∈ s.batches, (b.map Prod.fst).Nodup

def Ended (s : Shared) (i : SeqId) : Prop := i < s.seqs.length ∧ (s.seq i).finished = true

def Copies (s : Shared) : List Instr → Prop
  | [] => True
  | [.lookup _] => True
  | [.setFinished _ _] => True
  | [.removeRunning i] => Ended s i
  | [.readWaiting i] => Ended s i
  | [.build i d v k acc] => Ended s i ∧ d < s.deques.length ∧ v ≤ (s.deque d).version ∧
      (∀ j ∈ acc, j < s.seqs.length) ∧
      ((s.deque d).version = v → Placed s (acc ++ (s.deque d).items.drop k))
  | [.assignWaiting i acc] => Ended s i ∧ (∀ j ∈ acc, j < s.seqs.length) ∧ Placed s acc
  | [.cleanUp _] => True
  | _ => False

def Forms (s : Shared) : List Instr → Prop
  | [.checkAdd _ _] => NoneHeld s
  | [.append _ _] => NoneHeld s
  | [.setByRequest _ _] => NoneHeld s
  | [.formStart] => NoneHeld s
  | [.formRunning _ todo batch _] => NoneHeld s ∧ (batch.map Prod.fst).Nodup ∧
      ∀ j, (s.seq j).finished = false → (batch.map Prod.fst ++ todo).count j ≤ s.running.count j
  | [.formWaiting _ batch _] => (batch.map Prod.fst).Nodup ∧
      ∀ j, (s.seq j).finished = false → (batch.map Prod.fst).count j ≤ load s j ∧
        s.held.count j ≤ (batch.map Prod.fst).count j
  | [.scanIds batch k ids] => (batch.map Prod.fst).Nodup ∧
      ∀ j, (s.seq j).finished = false → (batch.map Prod.fst).count j ≤ load s j ∧
        s.held.count j ≤ (batch.map Prod.fst).count j ∧
        (j ∈ s.running → j ∈ ids ∨ j ∈ s.running.drop k) ∧ (j ∈ ids → j ∈ s.running)
  | [.merge ids todo] => todo.Nodup ∧
      ∀ j, (s.seq j).finished = false → (j ∈ s.held ↔ j ∈ todo ∧ j ∉ ids)
  | [.scanLive k acc] => NoneHeld s ∧ (∀ j ∈ acc, j < s.seqs.length) ∧
      ∀ j, (s.seq j).finished = false → acc.count j+(s.running.drop k).count j = s.running.count j
  | [.setRunning acc] => NoneHeld s ∧ (∀ j ∈ acc, j < s.seqs.length) ∧
      ∀ j, (s.seq j).finished = false → acc.count j = s.running.count j
  | _ => False

def Local (t : Tid) (s : Shared) (code : List Instr) : Prop :=
  match t with
  | .loop => NoneHeld s ∧ Copies s code ∨ Forms s code
  | .http _ => Copies s code

structure Frame (s s' : Shared) : Prop where
  length : s.seqs.length ≤ s'.seqs.length
  ended : ∀ i, Ended s i → Ended s' i
  deques : ∀ d, d < s.deques.length → d < s'.deques.length ∧
    (s'.deque d = s.deque d ∨ (s.deque d).version < (s'.deque d).version)

theorem Copies.mild (h : Copies s code) (hf : Frame s s') (hp : ∀ c, Placed s c → Placed s' c) :
    Copies s' code := by
  unfold Copies at h ⊢
  split at h
  · trivial
  · trivial
  · trivial
  · exact hf.ended _ h
  · exact hf.ended _ h
  · obtain ⟨he,hd,hv,hacc,hpl⟩ := h
    obtain ⟨hd',hq⟩ := hf.deques _ hd
    refine ⟨hf.ended _ he,hd',?_,fun j hj => lt_of_lt_of_le (hacc j hj) hf.length,fun hver => ?_⟩
    · rcases hq with hq | hq
      · rwa [hq]
      · omega
    · rcases hq with hq | hq
      · rw [hq] at hver ⊢
        exact hp _ (hpl hver)
      · omega
  · obtain ⟨he,hacc,hpl⟩ := h
    exact ⟨hf.ended _ he,fun j hj => lt_of_lt_of_le (hacc j hj) hf.length,hp _ hpl⟩
  · trivial
  · exact h

theorem Copies.noticed (h : Copies s code) (hf : Frame s s') (hn : Notices s code)
    (hv : (s.deque s.waiting).version < (s'.deque s.waiting).version) : Copies s' code := by
  unfold Copies at h ⊢
  split at h
  · trivial
  · trivial
  · trivial
  · exact hf.ended _ h
  · exact hf.ended _ h
  · obtain ⟨he,hd,hle,hacc,_⟩ := h
    obtain rfl : _ = s.waiting := hn
    exact ⟨hf.ended _ he,(hf.deques _ hd).1,by omega,
      fun j hj => lt_of_lt_of_le (hacc j hj) hf.length,fun hver => by omega⟩
  · exact hn.elim
  · trivial
  · exact h

structure Aside (i : Instr) (s s' : Shared) : Prop where
  deques : ∀ d, d < s.deques.length → d < s'.deques.length ∧ s'.deque d = s.deque d
  length : s'.seqs.length = s.seqs.length
  flags : ∀ j, (s'.seq j).finished = false →
    (s.seq j).finished = false ∧ ((s'.seq j).cancelled = false → (s.seq j).cancelled = false)
  held : s'.held = s.held
  running : s'.running = s.running ∨
    ∃ j, i = .removeRunning j ∧ Ended s j ∧ s'.running = s.running.erase j

theorem Aside.of_eq (h : s' = s) : Aside i s s' := by
  subst h
  exact ⟨fun d hd => ⟨hd,rfl⟩,rfl,fun _ hf => ⟨hf,id⟩,rfl,.inl rfl⟩

theorem Aside.frame (h : Aside i s s') : Frame s s' where
  length := h.length.ge
  ended := fun j hj => ⟨h.length.symm ▸ hj.1,by
    by_contra hn
    have := (h.flags j (by simpa using hn)).1
    simp [hj.2] at this⟩
  deques := fun d hd => ⟨(h.deques d hd).1,.inl (h.deques d hd).2⟩

theorem Aside.count (h : Aside i s s') {j : SeqId} (hj : (s'.seq j).finished = false) :
    s'.running.count j = s.running.count j := by
  rcases h.running with hr | ⟨k,_,hk,hr⟩
  · rw [hr]
  · have hne : j ≠ k := fun he => by
      subst he
      have := (h.flags j hj).1
      simp [hk.2] at this
    rw [hr,List.count_erase_of_ne hne]

theorem Aside.load (h : Aside i s s') {j : SeqId} (hj : (s'.seq j).finished = false) :
    load s' j = load s j := by
  unfold Races.load
  rw [h.count hj,h.held]

theorem Placed.aside {c : List SeqId} (h : Placed s c) (ha : Aside i s s') : Placed s' c := by
  intro j hj
  obtain ⟨hf,hc⟩ := ha.flags j hj
  rw [ha.load hj]
  exact ⟨(h j hf).1,fun hcan => (h j hf).2 (hc hcan)⟩

theorem NoneHeld.aside (h : NoneHeld s) (ha : Aside i s s') : NoneHeld s' := by
  intro j hj
  rw [ha.held]
  exact h j (ha.flags j hj).1

theorem Copies.aside (h : Copies s code) (ha : Aside i s s') : Copies s' code :=
  h.mild ha.frame fun _ hp => hp.aside ha

theorem drop_erase {l : List SeqId} {j : SeqId} {k : Nat} (h : j ∉ l.take k) :
    (l.erase j).drop k = (l.drop k).erase j := by
  induction l generalizing k with
  | nil => simp
  | cons a l ih =>
    cases k with
    | zero => simp
    | succ k =>
      simp only [List.take_succ_cons,List.mem_cons,not_or] at h
      rw [List.erase_cons_tail (by simpa using Ne.symm h.1),List.drop_succ_cons,List.drop_succ_cons]
      exact ih h.2

/-- An iteration over `running` still finds the unfinished sequences that it
has not passed. -/
theorem Aside.count_drop (ha : Aside i s s') {j k : Nat} (hj : (s'.seq j).finished = false)
    (hn : ∀ e, i = .removeRunning e → e ∉ s.running.take k) :
    (s'.running.drop k).count j = (s.running.drop k).count j := by
  rcases ha.running with hr | ⟨e,hi,he,hr⟩
  · rw [hr]
  · have hne : j ≠ e := fun hje => by
      subst hje
      have := (ha.flags j hj).1
      simp [he.2] at this
    rw [hr,drop_erase (hn e hi),List.count_erase_of_ne hne]

theorem Forms.aside (h : Forms s code) (ha : Aside i s s')
    (hn : ∀ e, i = .removeRunning e → NotPassed s e code) : Forms s' code := by
  have hmem : ∀ j, (s'.seq j).finished = false → (j ∈ s'.running ↔ j ∈ s.running) := fun j hj => by
    rw [← List.count_pos_iff,← List.count_pos_iff,ha.count hj]
  unfold Forms at h ⊢
  split at h
  · exact h.aside ha
  · exact h.aside ha
  · exact h.aside ha
  · exact h.aside ha
  · refine ⟨h.1.aside ha,h.2.1,fun j hj => ?_⟩
    rw [ha.count hj]
    exact h.2.2 j (ha.flags j hj).1
  · refine ⟨h.1,fun j hj => ?_⟩
    rw [ha.load hj,ha.held]
    exact h.2 j (ha.flags j hj).1
  · rename_i batch k ids
    refine ⟨h.1,fun j hj => ?_⟩
    obtain ⟨h1,h2,h3,h4⟩ := h.2 j (ha.flags j hj).1
    rw [ha.load hj,ha.held,hmem j hj,← List.count_pos_iff (l := s'.running.drop k),
      ha.count_drop hj fun e he => hn e he,List.count_pos_iff]
    exact ⟨h1,h2,h3,h4⟩
  · refine ⟨h.1,fun j hj => ?_⟩
    rw [ha.held]
    exact h.2 j (ha.flags j hj).1
  · refine ⟨h.1.aside ha,fun j hj => ha.length.symm ▸ h.2.1 j hj,fun j hj => ?_⟩
    rw [ha.count hj,ha.count_drop hj fun e he => hn e he]
    exact h.2.2 j (ha.flags j hj).1
  · refine ⟨h.1.aside ha,fun j hj => ha.length.symm ▸ h.2.1 j hj,fun j hj => ?_⟩
    rw [ha.count hj]
    exact h.2.2 j (ha.flags j hj).1
  · exact h

theorem aside_modify {e : SeqId} {f : Sequence → Sequence} (hf : ∀ q : Sequence,
    (f q).finished = false → q.finished = false ∧ ((f q).cancelled = false → q.cancelled = false))
    (i : Instr) (s : Shared) : Aside i s (s.modify e f) where
  deques := fun d hd => ⟨hd,rfl⟩
  length := by simp [Shared.modify]
  flags := fun j hj => by
    rw [seq_modify] at hj ⊢
    split_ifs at hj ⊢ with h
    · rw [h.1]
      exact hf _ hj
    · exact ⟨hj,id⟩
  held := rfl
  running := .inl rfl

theorem Base.aside (h : Base s) (ha : Aside i s s') (hw : s'.waiting = s.waiting)
    (hd : s'.deques = s.deques) (hb : s'.batches = s.batches) : Base s' where
  placed := by
    have hq : s'.queue = s.queue := by simp only [Shared.queue,Shared.deque,hw,hd]
    rw [hq]
    exact h.placed.aside ha
  waiting := by rw [hw,hd]; exact h.waiting
  inDeque := fun d j hj => by
    rw [Shared.deque,hd] at hj
    rw [ha.length]
    exact h.inDeque d j hj
  inRunning := fun j hj => by
    rw [ha.length]
    rcases ha.running with hr | ⟨e,_,_,hr⟩
    · exact h.inRunning j (hr ▸ hj)
    · exact h.inRunning j (List.mem_of_mem_erase (hr ▸ hj))
  inHeld := fun j hj => by
    rw [ha.length]
    exact h.inHeld j (ha.held ▸ hj)
  batches := fun b hm => h.batches b (hb ▸ hm)

theorem Placed.queue_build {e : SeqId} {acc items : List SeqId} {k : Nat} {j : SeqId}
    (h : Placed s (acc ++ items.drop k)) (he : (s.seq e).finished = true) (hj : items[k]? = some j) :
    Placed s ((if j ≠ e then acc ++ [j] else acc) ++ items.drop (k+1)) := by
  have hdrop : items.drop k = j :: items.drop (k+1) := by
    obtain ⟨hk,rfl⟩ := List.getElem?_eq_some_iff.mp hj
    exact List.drop_eq_getElem_cons hk
  intro a ha
  have hall := h a ha
  rw [hdrop] at hall
  split_ifs with hne
  · rwa [List.append_assoc,List.singleton_append]
  · -- the dropped sequence is the one that has ended
    rw [not_not] at hne
    have hae : j ≠ a := fun hja => by
      rw [← hja,hne,he] at ha
      cases ha
    simpa [List.count_append,List.count_cons_of_ne hae] using hall

theorem copy_step (hb : Base s) (hc : Copies s [i]) (hx : exec cfg t s i [] () = some (s',code)) :
    Base s' ∧ Copies s' code ∧ Aside i s s' := by
  cases i with
  | lookup r =>
    simp only [exec] at hx
    split at hx <;> cases hx
    · exact ⟨hb,trivial,.of_eq rfl⟩
    · rename_i j _
      have ha := aside_modify (e := j) (f := fun q => { q with cancelled := true })
        (fun q hq => ⟨hq,by simp⟩) (.lookup r) s
      exact ⟨hb.aside ha rfl rfl rfl,trivial,ha⟩
  | setFinished j reason =>
    simp only [exec] at hx
    split_ifs at hx with hj
    cases hx
    have ha := aside_modify (e := j)
      (f := fun q => { q with finished := true, finishReason := some reason })
      (fun q hq => by simp at hq) (.setFinished j reason) s
    refine ⟨hb.aside ha rfl rfl rfl,⟨ha.length.symm ▸ hj,?_⟩,ha⟩
    rw [seq_modify,if_pos ⟨rfl,hj⟩]
  | removeRunning j =>
    cases hx
    have ha : Aside (.removeRunning j) s { s with running := s.running.erase j } :=
      ⟨fun d hd => ⟨hd,rfl⟩,rfl,fun _ hf => ⟨hf,id⟩,rfl,.inr ⟨j,rfl,hc,rfl⟩⟩
    exact ⟨hb.aside ha rfl rfl rfl,hc,ha⟩
  | readWaiting j =>
    cases hx
    exact ⟨hb,⟨hc,hb.waiting,le_refl _,by simp,fun _ => hb.placed⟩,.of_eq rfl⟩
  | build j d v k acc =>
    obtain ⟨he,hd,hv,hacc,hpl⟩ := hc
    simp only [exec] at hx
    split_ifs at hx with hver
    · cases hx
      exact ⟨hb,trivial,.of_eq rfl⟩
    · rw [not_not] at hver
      split at hx <;> cases hx
      · rename_i hend
        refine ⟨hb,⟨he,hacc,?_⟩,.of_eq rfl⟩
        have := hpl hver
        rwa [List.drop_eq_nil_of_le (List.getElem?_eq_none_iff.mp hend),List.append_nil] at this
      · rename_i a ha
        refine ⟨hb,⟨he,hd,hv,fun b hbm => ?_,fun _ => (hpl hver).queue_build he.2 ha⟩,.of_eq rfl⟩
        have hlt := hb.inDeque d a (List.mem_of_getElem? ha)
        split_ifs at hbm
        · rcases List.mem_append.mp hbm with hbm | hbm
          · exact hacc b hbm
          · rwa [List.mem_singleton.mp hbm]
        · exact hacc b hbm
  | assignWaiting j acc =>
    cases hx
    obtain ⟨he,hacc,hpl⟩ := hc
    refine ⟨⟨?_,by simp,fun d a ha => ?_,hb.inRunning,hb.inHeld,hb.batches⟩,trivial,
      ⟨fun d hd => ⟨by simp; omega,?_⟩,rfl,fun _ hf => ⟨hf,id⟩,rfl,.inl rfl⟩⟩
    · rw [Shared.queue,deque_push,if_pos rfl]
      exact hpl
    · rw [deque_push] at ha
      split_ifs at ha
      · exact hacc a ha
      · exact hb.inDeque d a ha
    · rw [deque_push,if_neg (by omega)]
  | cleanUp j =>
    cases hx
    have ha := aside_modify (e := j) (f := fun q => { q with blockTable := [], kvState := false })
      (fun q hq => ⟨hq,id⟩) (.cleanUp j) s
    have ha' : Aside (.cleanUp j) s
        { s.modify j (fun q => { q with blockTable := [], kvState := false }) with
          byRequest := Function.update s.byRequest (s.seq j).requestId none } :=
      ⟨ha.deques,ha.length,ha.flags,ha.held,ha.running⟩
    exact ⟨hb.aside ha' rfl rfl rfl,trivial,ha'⟩
  | checkAdd r cached | append r cached | setByRequest r j | formStart | formRunning d todo batch budget
  | formWaiting d batch budget | scanIds batch k ids | merge ids todo | scanLive k acc
  | setRunning acc => exact hc.elim

/-- The place of a sequence depends on its flags and on `running` and `held`. -/
theorem Placed.congr {c : List SeqId} (h : Placed s c) (hf : ∀ j, s'.seq j = s.seq j)
    (hl : ∀ j, (s.seq j).finished = false → load s' j = load s j) : Placed s' c := by
  intro j hj
  rw [hf] at hj ⊢
  rw [hl j hj]
  exact h j hj

theorem frame_mutate (s : Shared) (d : Nat) (f : List SeqId → List SeqId) (l : List SeqId) :
    Frame s { s.mutate d f with held := l } where
  length := le_refl _
  ended := fun _ he => he
  deques := fun e he => by
    refine ⟨by simpa [Shared.mutate] using he,?_⟩
    have hq : ({ s.mutate d f with held := l } : Shared).deque e = (s.mutate d f).deque e := rfl
    rw [hq,deque_mutate]
    split_ifs with h
    · rw [h.1]
      exact .inr (Nat.lt_succ_self _)
    · exact .inl rfl

theorem Base.popped (h : Base s) {d : Nat} {l : List SeqId}
    (hp : Placed { s.mutate d List.tail with held := l }
      (if d = s.waiting then s.queue.tail else s.queue)) (hl : ∀ j ∈ l, j < s.seqs.length) :
    Base { s.mutate d List.tail with held := l } where
  placed := by
    have hq : ({ s.mutate d List.tail with held := l } : Shared).queue =
        if d = s.waiting then s.queue.tail else s.queue := by
      have hw : ({ s.mutate d List.tail with held := l } : Shared).queue =
          ((s.mutate d List.tail).deque s.waiting).items := rfl
      rw [hw,deque_mutate]
      by_cases hd : d = s.waiting
      · subst hd
        simp [h.waiting,Shared.queue]
      · rw [if_neg (fun hc => hd hc.1.symm),if_neg hd]
        rfl
    rw [hq]
    exact hp
  waiting := by simpa [Shared.mutate] using h.waiting
  inDeque := fun e j hj => by
    have hq : ({ s.mutate d List.tail with held := l } : Shared).deque e =
        (s.mutate d List.tail).deque e := rfl
    rw [hq,deque_mutate] at hj
    split_ifs at hj
    · exact h.inDeque d j (List.mem_of_mem_tail hj)
    · exact h.inDeque e j hj
  inRunning := h.inRunning
  inHeld := hl
  batches := h.batches

theorem next_skip {d : Nat} {batch : List (SeqId × Bool)} {budget : Nat}
    (h : next cfg s d batch budget = .skip) :
    ∃ e rest, (s.deque d).items = e :: rest ∧
      ((s.seq e).finished = true ∨ (s.seq e).cancelled = true) := by
  unfold next at h
  split at h
  · cases h
  · rename_i e rest hitems
    split_ifs at h with h1 h2
    · exact ⟨e,rest,hitems,h2⟩
    · simp only at h
      split_ifs at h

theorem next_take {d : Nat} {batch : List (SeqId × Bool)} {budget cost : Nat} {e : SeqId} {pre : Bool}
    (h : next cfg s d batch budget = .take e pre cost) :
    ∃ rest, (s.deque d).items = e :: rest ∧ (s.seq e).finished = false ∧
      (s.seq e).cancelled = false := by
  unfold next at h
  split at h
  · cases h
  · rename_i i rest hitems
    split_ifs at h with h1 h2
    simp only [not_or,Bool.not_eq_true] at h2
    simp only at h
    split_ifs at h <;> cases h <;> exact ⟨rest,hitems,h2⟩

def Takes (cfg : SchedConfig) (s : Shared) : Instr → Prop
  | .append _ _ => True
  | .formWaiting d batch budget => ∃ i pre cost, next cfg s d batch budget = .take i pre cost
  | _ => False

structure Formed (cfg : SchedConfig) (i : Instr) (s s' : Shared) (code : List Instr) : Prop where
  base : Base s'
  loop : NoneHeld s' ∧ Copies s' code ∨ Forms s' code
  others : ∀ c, (Takes cfg s i → Notices s c) → Copies s c → Copies s' c

theorem formed_same (hb : Base s) (hl : NoneHeld s ∧ Copies s code ∨ Forms s code) :
    Formed cfg i s s code := ⟨hb,hl,fun _ _ hc => hc⟩

theorem seq_push (s : Shared) (q : Sequence) (j : Nat) :
    (s.seqs ++ [q]).getD j default = if j = s.seqs.length then q else s.seq j := by
  simp only [Shared.seq,List.getD_eq_getElem?_getD]
  rcases Nat.lt_trichotomy j s.seqs.length with hj | hj | hj
  · rw [List.getElem?_append_left hj,if_neg (ne_of_lt hj)]
  · rw [if_pos hj,hj]
    simp
  · rw [if_neg (ne_of_gt hj),List.getElem?_eq_none (by simp; omega),
      List.getElem?_eq_none (by omega)]

theorem append_step {r : Request} {cached : Nat} (hb : Base s) (hn : NoneHeld s)
    (hx : exec cfg t s (.append r cached) [] () = some (s',code)) :
    Formed cfg (.append r cached) s s' code := by
  simp only [exec,Option.some.injEq,Prod.mk.injEq] at hx
  obtain ⟨hs',rfl⟩ := hx
  have hseq : ∀ j, s'.seq j = if j = s.seqs.length then
      { r.sequence none with cachedLen := cached } else s.seq j := fun j => by
    rw [← hs']
    exact seq_push s _ j
  have hdeque : ∀ e, s'.deque e = if e = s.waiting ∧ s.waiting < s.deques.length then
      ⟨(s.deque s.waiting).items ++ [s.seqs.length],(s.deque s.waiting).version+1⟩
      else s.deque e := fun e => by
    rw [← hs']
    exact deque_mutate s s.waiting e (· ++ [s.seqs.length])
  have hw : s'.waiting = s.waiting := by rw [← hs']; rfl
  have hr : s'.running = s.running := by rw [← hs']; rfl
  have hh : s'.held = s.held := by rw [← hs']; rfl
  have hlen : s'.seqs.length = s.seqs.length+1 := by rw [← hs']; simp
  have hdl : s'.deques.length = s.deques.length := by rw [← hs']; simp [Shared.mutate]
  have hqueue : s'.queue = s.queue ++ [s.seqs.length] := by
    rw [Shared.queue,hw,hdeque,if_pos ⟨rfl,hb.waiting⟩]
    rfl
  have hload : ∀ j, load s' j = load s j := fun j => by unfold load; rw [hr,hh]
  have hnew : ∀ j, (s'.seq j).finished = false → j ≠ s.seqs.length → (s.seq j).finished = false :=
    fun j hj hne => by rwa [hseq,if_neg hne] at hj
  have hframe : Frame s s' := by
    refine ⟨by omega,fun j hj => ⟨by rw [hlen]; exact Nat.lt_succ_of_lt hj.1,?_⟩,
      fun e he => ⟨by rwa [hdl],?_⟩⟩
    · rw [hseq,if_neg (ne_of_lt hj.1)]
      exact hj.2
    · rw [hdeque]
      split_ifs with hc
      · rw [hc.1]
        exact .inr (Nat.lt_succ_self _)
      · exact .inl rfl
  refine ⟨⟨fun j hj => ?_,by rw [hw,hdl]; exact hb.waiting,fun e j hj => ?_,fun j hj => ?_,
    fun j hj => ?_,by rw [← hs']; exact hb.batches⟩,.inr fun j hj => ?_,
    fun c hc hcop => hcop.noticed hframe (hc trivial) ?_⟩
  · rw [hqueue,hload,hseq]
    by_cases hne : j = s.seqs.length
    · have hq : s.queue.count j = 0 := List.count_eq_zero.mpr fun hm =>
        absurd (hb.inDeque _ _ hm) (by rw [hne]; exact lt_irrefl _)
      have hrun : s.running.count j = 0 := List.count_eq_zero.mpr fun hm =>
        absurd (hb.inRunning _ hm) (by rw [hne]; exact lt_irrefl _)
      have hheld : s.held.count j = 0 := List.count_eq_zero.mpr fun hm =>
        absurd (hb.inHeld _ hm) (by rw [hne]; exact lt_irrefl _)
      have hone : [s.seqs.length].count j = 1 := by rw [hne]; simp
      simp only [load,List.count_append,hq,hrun,hheld,hone]
      exact ⟨le_refl 1,fun _ => trivial⟩
    · have hone : [s.seqs.length].count j = 0 := List.count_eq_zero.mpr (by simpa using hne)
      rw [if_neg hne,List.count_append,hone,Nat.add_zero]
      exact hb.placed j (hnew j hj hne)
  · rw [hlen]
    rw [hdeque] at hj
    split_ifs at hj
    · rcases List.mem_append.mp hj with hj | hj
      · exact Nat.lt_succ_of_lt (hb.inDeque _ j hj)
      · rw [List.mem_singleton.mp hj]
        exact Nat.lt_succ_self _
    · exact Nat.lt_succ_of_lt (hb.inDeque _ j hj)
  · rw [hlen]
    exact Nat.lt_succ_of_lt (hb.inRunning j (hr ▸ hj))
  · rw [hlen]
    exact Nat.lt_succ_of_lt (hb.inHeld j (hh ▸ hj))
  · rw [hh]
    by_cases hne : j = s.seqs.length
    · exact List.count_eq_zero.mpr fun hm =>
        absurd (hb.inHeld _ hm) (by rw [hne]; exact lt_irrefl _)
    · exact hn j (hnew j hj hne)
  · rw [hdeque,if_pos ⟨rfl,hb.waiting⟩]
    exact Nat.lt_succ_self _

theorem formRunning_step {d budget : Nat} {todo : List SeqId} {batch : List (SeqId × Bool)}
    (hb : Base s) (hf : Forms s [.formRunning d todo batch budget])
    (hx : exec cfg t s (.formRunning d todo batch budget) [] () = some (s',code)) :
    Formed cfg (.formRunning d todo batch budget) s s' code := by
  obtain ⟨hn,hnd,hcount⟩ := hf
  have hdone : Forms s [.formWaiting d batch budget] := by
    refine ⟨hnd,fun j hj => ⟨?_,?_⟩⟩
    · have := hcount j hj
      simp only [List.count_append,load] at this ⊢
      omega
    · rw [hn j hj]
      exact Nat.zero_le _
  simp only [exec] at hx
  split at hx
  · cases hx
    exact formed_same hb (.inr hdone)
  · rename_i e todo
    split_ifs at hx with h1 h2 <;> cases hx
    · exact formed_same hb (.inr hdone)
    · refine formed_same hb (.inr ⟨hn,hnd,fun j hj => ?_⟩)
      have := hcount j hj
      have hle : todo.count j ≤ (e :: todo).count j := List.count_le_count_cons
      simp only [List.count_append] at this ⊢
      omega
    · simp only [not_or,Bool.not_eq_true] at h2
      refine formed_same hb (.inr ⟨hn,?_,fun j hj => ?_⟩)
      · -- an unfinished sequence is in `running` only once
        have he := hcount e h2.1
        have hone := (hb.placed e h2.1).1
        rw [List.count_append,List.count_cons_self] at he
        have hzero : (batch.map Prod.fst).count e = 0 := by
          simp only [load] at hone
          omega
        rw [List.map_append]
        exact List.nodup_append.mpr ⟨hnd,by simp,fun a ha c hc hac => by
          simp only [List.map_cons,List.map_nil,List.mem_singleton] at hc
          rw [hac,hc] at ha
          exact List.count_eq_zero.mp hzero ha⟩
      · have := hcount j hj
        simpa [List.count_append,List.append_assoc] using this

theorem formWaiting_step {d budget : Nat} {batch : List (SeqId × Bool)} (hb : Base s)
    (hf : Forms s [.formWaiting d batch budget])
    (hg : ∀ e pre cost, next cfg s d batch budget = .take e pre cost → d = s.waiting)
    (hx : exec cfg t s (.formWaiting d batch budget) [] () = some (s',code)) :
    Formed cfg (.formWaiting d batch budget) s s' code := by
  obtain ⟨hnd,hcount⟩ := hf
  simp only [exec] at hx
  split at hx
  · cases hx
    refine ⟨⟨hb.placed,hb.waiting,hb.inDeque,hb.inRunning,hb.inHeld,fun b hm => ?_⟩,.inr ⟨hnd,?_⟩,
      fun c _ hc => hc.mild ⟨le_refl _,fun _ he => he,fun _ hd => ⟨hd,.inl rfl⟩⟩ fun _ hp => hp⟩
    · rcases List.mem_append.mp hm with hm | hm
      · exact hb.batches b hm
      · rw [List.mem_singleton.mp hm]
        exact hnd
    · exact fun j hj => ⟨(hcount j hj).1,(hcount j hj).2,fun hm => .inr hm,by simp⟩
  · rename_i hskip
    cases hx
    obtain ⟨e,rest,hitems,hdead⟩ := next_skip hskip
    have hplace : Placed (s.mutate d List.tail) (if d = s.waiting then s.queue.tail else s.queue) := by
      intro j hj
      have hall := hb.placed j hj
      have hload : load (s.mutate d List.tail) j = load s j := rfl
      rw [hload]
      split_ifs with hd
      · rw [Shared.queue,← hd,hitems] at hall ⊢
        by_cases hje : e = j
        · subst hje
          rw [List.count_cons_self] at hall
          refine ⟨by have := hall.1; simp only [List.tail_cons]; omega,fun hcan => ?_⟩
          rcases hdead with hdead | hdead
          · exact absurd (hdead.symm.trans hj) (by simp)
          · exact absurd (hdead.symm.trans hcan) (by simp)
        · rwa [List.count_cons_of_ne hje] at hall
      · exact hall
    exact ⟨hb.popped hplace hb.inHeld,.inr ⟨hnd,hcount⟩,
      fun c _ hc => hc.mild (frame_mutate s d List.tail s.held) fun _ hp => hp⟩
  · rename_i e pre cost htake
    cases hx
    obtain ⟨rest,hitems,hfin,hcan⟩ := next_take htake
    obtain rfl := hg e pre cost htake
    have hqueue : s.queue = e :: rest := hitems
    have hzero : load s e = 0 := by
      have := (hb.placed e hfin).1
      rw [hqueue,List.count_cons_self] at this
      omega
    have hload : ∀ j, load { s.mutate s.waiting List.tail with held := s.held ++ [e] } j =
        load s j+[e].count j := fun j => by
      simp only [load,List.count_append]
      exact (Nat.add_assoc _ _ _).symm
    refine ⟨hb.popped ?_ ?_,.inr ⟨?_,fun j hj => ?_⟩,
      fun c hc hcop => hcop.noticed (frame_mutate s s.waiting List.tail _) (hc ⟨e,pre,cost,htake⟩) ?_⟩
    · intro j hj
      have hall := hb.placed j hj
      change _ ∧ ((s.seq j).cancelled = false → _)
      rw [if_pos rfl,hload,hqueue]
      rw [hqueue] at hall
      by_cases hje : e = j
      · subst hje
        simpa [Nat.add_comm,Nat.add_assoc,Nat.add_left_comm] using hall
      · rw [List.count_cons_of_ne hje] at hall
        simpa [List.count_eq_zero.mpr (show j ∉ [e] by simpa using Ne.symm hje)] using hall
    · intro j hj
      rcases List.mem_append.mp hj with hj | hj
      · exact hb.inHeld j hj
      · rw [List.mem_singleton.mp hj]
        exact hb.inDeque s.waiting e (by rw [hitems]; simp)
    · rw [List.map_append]
      refine List.nodup_append.mpr ⟨hnd,by simp,fun a ha c hc hac => ?_⟩
      simp only [List.map_cons,List.map_nil,List.mem_singleton] at hc
      rw [hac,hc] at ha
      have := (hcount e hfin).1
      have hpos := List.count_pos_iff.mpr ha
      omega
    · have := hcount j hj
      rw [hload]
      simp only [List.map_append,List.map_cons,List.map_nil,List.count_append]
      omega
    · have hq : ({ s.mutate s.waiting List.tail with held := s.held ++ [e] } : Shared).deque s.waiting =
          (s.mutate s.waiting List.tail).deque s.waiting := rfl
      rw [hq,deque_mutate,if_pos ⟨rfl,hb.waiting⟩]
      exact Nat.lt_succ_self _

theorem scanIds_step {k : Nat} {batch : List (SeqId × Bool)} {ids : List SeqId} (hb : Base s)
    (hf : Forms s [.scanIds batch k ids])
    (hx : exec cfg t s (.scanIds batch k ids) [] () = some (s',code)) :
    Formed cfg (.scanIds batch k ids) s s' code := by
  obtain ⟨hnd,hall⟩ := hf
  simp only [exec] at hx
  split at hx <;> cases hx
  · rename_i hend
    have hdrop := List.drop_eq_nil_of_le (List.getElem?_eq_none_iff.mp hend)
    refine formed_same hb (.inr ⟨hnd,fun j hj => ?_⟩)
    obtain ⟨hle,hheld,hseen,hids⟩ := hall j hj
    have hone := (hb.placed j hj).1
    simp only [load] at hle hone
    rw [hdrop] at hseen
    constructor
    · intro hm
      have hpos := List.count_pos_iff.mpr hm
      refine ⟨List.count_pos_iff.mp (by omega),fun hid => ?_⟩
      have := List.count_pos_iff.mpr (hids hid)
      omega
    · rintro ⟨hm,hid⟩
      have hpos := List.count_pos_iff.mpr hm
      have hrun : s.running.count j = 0 := List.count_eq_zero.mpr fun hr =>
        (hseen hr).elim hid (by simp)
      exact List.count_pos_iff.mp (by omega)
  · rename_i e he
    obtain ⟨hk,hget⟩ := List.getElem?_eq_some_iff.mp he
    refine formed_same hb (.inr ⟨hnd,fun j hj => ?_⟩)
    obtain ⟨hle,hheld,hseen,hids⟩ := hall j hj
    refine ⟨hle,hheld,fun hm => ?_,fun hm => ?_⟩
    · rcases hseen hm with hm | hm
      · exact .inl (List.mem_cons_of_mem e hm)
      · rw [List.drop_eq_getElem_cons hk,hget] at hm
        rcases List.mem_cons.mp hm with rfl | hm
        · exact .inl (by simp)
        · exact .inr hm
    · rcases List.mem_cons.mp hm with rfl | hm
      · exact List.mem_of_getElem? he
      · exact hids hm

theorem merge_step {ids todo : List SeqId} (hb : Base s) (hf : Forms s [.merge ids todo])
    (hx : exec cfg t s (.merge ids todo) [] () = some (s',code)) :
    Formed cfg (.merge ids todo) s s' code := by
  obtain ⟨hnd,hall⟩ := hf
  simp only [exec] at hx
  split at hx
  · cases hx
    refine formed_same hb (.inr ⟨fun j hj => ?_,by simp,fun j hj => by simp⟩)
    exact List.count_eq_zero.mpr fun hm => by simpa using (hall j hj).mp hm
  · rename_i e todo
    obtain ⟨hnot,hnd⟩ := List.nodup_cons.mp hnd
    split_ifs at hx with he <;> cases hx
    · have hheld : e ∈ s.held := (hall e he.2).mpr ⟨by simp,he.1⟩
      have hpos := List.count_pos_iff.mpr hheld
      have hload : ∀ j, load { s with running := s.running ++ [e], held := s.held.erase e } j =
          load s j := by
        intro j
        simp only [load,List.count_append]
        by_cases hje : j = e
        · subst hje
          rw [List.count_erase_self,List.count_singleton_self]
          omega
        · rw [List.count_erase_of_ne hje,List.count_eq_zero.mpr (show j ∉ [e] by simpa using hje)]
          omega
      have hplace : ∀ c, Placed s c →
          Placed { s with running := s.running ++ [e], held := s.held.erase e } c :=
        fun c hc => hc.congr (fun _ => rfl) fun j _ => hload j
      refine ⟨⟨hplace _ hb.placed,hb.waiting,hb.inDeque,fun j hj => ?_,
        fun j hj => hb.inHeld j (List.mem_of_mem_erase hj),hb.batches⟩,.inr ⟨hnd,fun j hj => ?_⟩,
        fun c _ hc => hc.mild ⟨le_refl _,fun _ he => he,fun _ hd => ⟨hd,.inl rfl⟩⟩ hplace⟩
      · rcases List.mem_append.mp hj with hj | hj
        · exact hb.inRunning j hj
        · rw [List.mem_singleton.mp hj]
          exact hb.inHeld e hheld
      · by_cases hje : j = e
        · subst hje
          have hone := (hb.placed j he.2).1
          have hgone : j ∉ s.held.erase j := fun hm => by
            have := List.count_pos_iff.mpr hm
            rw [List.count_erase_self] at this
            simp only [load] at hone
            omega
          exact ⟨fun hm => absurd hm hgone,fun hm => absurd hm.1 hnot⟩
        · change j ∈ s.held.erase e ↔ _
          rw [List.mem_erase_of_ne hje,hall j hj]
          simp [hje]
    · refine formed_same hb (.inr ⟨hnd,fun j hj => ?_⟩)
      rw [hall j hj]
      by_cases hje : j = e
      · subst hje
        have hid : j ∈ ids := by
          by_contra hn
          exact he ⟨hn,hj⟩
        simp [hid]
      · simp [hje]

theorem scanLive_step {k : Nat} {acc : List SeqId} (hb : Base s) (hf : Forms s [.scanLive k acc])
    (hx : exec cfg t s (.scanLive k acc) [] () = some (s',code)) :
    Formed cfg (.scanLive k acc) s s' code := by
  obtain ⟨hn,hacc,hall⟩ := hf
  simp only [exec] at hx
  split at hx <;> cases hx
  · rename_i hend
    have hdrop := List.drop_eq_nil_of_le (List.getElem?_eq_none_iff.mp hend)
    refine formed_same hb (.inr ⟨hn,hacc,fun j hj => ?_⟩)
    have := hall j hj
    rwa [hdrop,List.count_nil,Nat.add_zero] at this
  · rename_i e he
    obtain ⟨hk,hget⟩ := List.getElem?_eq_some_iff.mp he
    refine formed_same hb (.inr ⟨hn,fun j hj => ?_,fun j hj => ?_⟩)
    · split_ifs at hj
      · exact hacc j hj
      · rcases List.mem_append.mp hj with hj | hj
        · exact hacc j hj
        · rw [List.mem_singleton.mp hj]
          exact hb.inRunning e (List.mem_of_getElem? he)
    · have := hall j hj
      rw [List.drop_eq_getElem_cons hk,hget] at this
      split_ifs with hfin
      · have hje : e ≠ j := fun hej => by
          rw [hej,hj] at hfin
          cases hfin
        rwa [List.count_cons_of_ne hje] at this
      · rw [List.count_append,← this]
        simp only [List.count_cons,List.count_nil]
        omega

theorem setRunning_step {acc : List SeqId} (hb : Base s) (hf : Forms s [.setRunning acc])
    (hx : exec cfg t s (.setRunning acc) [] () = some (s',code)) :
    Formed cfg (.setRunning acc) s s' code := by
  obtain ⟨hn,hacc,hall⟩ := hf
  cases hx
  have hplace : ∀ c, Placed s c → Placed { s with running := acc } c :=
    fun c hc => hc.congr (fun _ => rfl) fun j hj => by simp only [load,hall j hj]
  exact ⟨⟨hplace _ hb.placed,hb.waiting,hb.inDeque,hacc,hb.inHeld,hb.batches⟩,.inl ⟨hn,trivial⟩,
    fun c _ hc => hc.mild ⟨le_refl _,fun _ he => he,fun _ hd => ⟨hd,.inl rfl⟩⟩ hplace⟩

theorem form_step (hb : Base s) (hf : Forms s [i])
    (hg : ∀ d batch budget e pre cost, i = .formWaiting d batch budget →
      next cfg s d batch budget = .take e pre cost → d = s.waiting)
    (hx : exec cfg t s i [] () = some (s',code)) : Formed cfg i s s' code := by
  cases i with
  | checkAdd r cached =>
    simp only [exec] at hx
    split_ifs at hx <;> cases hx
    · exact formed_same hb (.inl ⟨hf,trivial⟩)
    · exact formed_same hb (.inr hf)
  | append r cached => exact append_step hb hf hx
  | setByRequest r j =>
    cases hx
    exact ⟨⟨hb.placed,hb.waiting,hb.inDeque,hb.inRunning,hb.inHeld,hb.batches⟩,.inl ⟨hf,trivial⟩,
      fun c _ hc => hc.mild ⟨le_refl _,fun _ he => he,fun _ hd => ⟨hd,.inl rfl⟩⟩ fun _ hp => hp⟩
  | formStart =>
    cases hx
    exact formed_same hb (.inr ⟨hf,by simp,fun j _ => by simp⟩)
  | formRunning d todo batch budget => exact formRunning_step hb hf hx
  | formWaiting d batch budget =>
    exact formWaiting_step hb hf (fun e pre cost => hg d batch budget e pre cost rfl) hx
  | scanIds batch k ids => exact scanIds_step hb hf hx
  | merge ids todo => exact merge_step hb hf hx
  | scanLive k acc => exact scanLive_step hb hf hx
  | setRunning acc => exact setRunning_step hb hf hx
  | lookup r | setFinished j reason | removeRunning j | readWaiting j | build j d v k acc
  | assignWaiting j acc | cleanUp j => exact hf.elim

theorem single_of_copies (h : Copies s (i :: rest)) : rest = [] := by
  cases rest with
  | nil => rfl
  | cons j rest => cases i <;> exact h.elim

theorem single_of_forms (h : Forms s (i :: rest)) : rest = [] := by
  cases rest with
  | nil => rfl
  | cons j rest => cases i <;> exact h.elim

structure Sound (m : Machine) : Prop where
  base : Base m.shared
  each : Threads.Each Local m

theorem Sound.copied {m : Machine} (h : Sound m) (hg : ∀ e, i = .removeRunning e →
      ∀ u, u ≠ t → NotPassed m.shared e (m.code u))
    (hc : Copies m.shared [i]) (hn : t = .loop → NoneHeld m.shared)
    (hx : exec cfg t m.shared i [] () = some (s,code)) :
    Sound { shared := s, code := Function.update m.code t code } := by
  obtain ⟨hb,hcode,ha⟩ := copy_step h.base hc hx
  refine ⟨hb,fun u => ?_⟩
  by_cases hu : u = t
  · subst hu
    simp only [Function.update_self]
    cases u with
    | loop => exact .inl ⟨(hn rfl).aside ha,hcode⟩
    | http n => exact hcode
  · simp only [Function.update_of_ne hu]
    have hloc := h.each u
    cases u with
    | loop =>
      rcases hloc with ⟨hnone,hcop⟩ | hform
      · exact .inl ⟨hnone.aside ha,hcop.aside ha⟩
      · exact .inr (hform.aside ha fun e he => hg e he _ hu)
    | http n => exact hloc.aside ha

theorem Sound.step {m m' : Machine} {e : Event} (h : Sound m) (hg : Undisturbed cfg m e)
    (hs : step cfg m e = some m') : Sound m' := by
  cases e with
  | call c =>
    obtain ⟨hidle,rfl⟩ := Threads.step_call hs
    refine ⟨h.base,fun u => ?_⟩
    by_cases hu : u = (program cfg).caller c
    · subst hu
      simp only [Function.update_self]
      have hloc := h.each ((program cfg).caller c)
      rw [hidle] at hloc
      cases c with
      | cancel t r =>
        cases t with
        | loop => exact hloc.imp_right fun hf => hf.elim
        | http n => exact hloc
      | finish j reason => exact hloc.imp_right fun hf => hf.elim
      | addRequest r cached => exact .inr (hloc.resolve_right fun hf => hf).1
      | step => exact .inr (hloc.resolve_right fun hf => hf).1
      | dropFinished =>
        exact .inr ⟨(hloc.resolve_right fun hf => hf).1,by simp,fun j _ => by simp⟩
    · simp only [Function.update_of_ne hu]
      exact h.each u
  | tick t x =>
    obtain ⟨i,rest,s,code,hc,hx,rfl⟩ := Threads.step_tick hs
    replace hx : exec cfg t m.shared i rest () = some (s,code) := hx
    have hloc := h.each t
    rw [hc] at hloc
    have hmove : ∀ e, i = .removeRunning e → ∀ u, u ≠ t → NotPassed m.shared e (m.code u) := by
      rintro e rfl
      simpa [Undisturbed,hc] using hg
    have hcopy : Copies m.shared (i :: rest) → (t = .loop → NoneHeld m.shared) →
        Sound { shared := s, code := Function.update m.code t code } := by
      intro hcop hn
      obtain rfl := single_of_copies hcop
      exact h.copied hmove hcop hn hx
    cases t with
    | http n => exact hcopy hloc (by simp)
    | loop =>
      rcases hloc with ⟨hnone,hcop⟩ | hform
      · exact hcopy hcop fun _ => hnone
      · obtain rfl := single_of_forms hform
        have hwait : ∀ d batch budget e pre cost, i = .formWaiting d batch budget →
            next cfg m.shared d batch budget = .take e pre cost → d = m.shared.waiting := by
          rintro d batch budget e pre cost rfl htake
          simp only [Undisturbed,hc] at hg
          exact (hg e pre cost htake).1
        obtain ⟨hb,hcode,hothers⟩ := form_step h.base hform hwait hx
        refine ⟨hb,fun u => ?_⟩
        cases u with
        | loop =>
          simp only [Function.update_self]
          exact hcode
        | http n =>
          simp only [Function.update_of_ne (show Tid.http n ≠ .loop by simp)]
          refine hothers _ (fun htakes => ?_) (h.each (.http n))
          simp only [Undisturbed,hc] at hg
          cases i with
          | append r cached => exact hg _ (by simp)
          | formWaiting d batch budget =>
            obtain ⟨e,pre,cost,htake⟩ := htakes
            exact (hg e pre cost htake).2 _ (by simp)
          | _ => exact htakes.elim

theorem sound_init : Sound init := by
  have hdefault : ∀ j, (init.shared.seq j).finished = true := fun j => by
    simp [init,Shared.seq]
    rfl
  refine ⟨⟨fun j hj => ?_,by simp [init],fun d j hj => ?_,by simp [init],by simp [init],
    by simp [init]⟩,fun u => ?_⟩
  · rw [hdefault] at hj
    cases hj
  · cases d <;> simp [init,Shared.deque] at hj
  · cases u with
    | loop => exact .inl ⟨fun j _ => by simp [init],trivial⟩
    | http n => trivial

/-- Cancels on any number of threads in any interleaving with admissions, steps
and finishing requests: whenever the loop thread is between two calls, every
request that is unfinished and not being cancelled is in exactly one of
`waiting` and `running`, once, and no batch ever had a sequence twice. -/
theorem placed_once (cfg : SchedConfig) (es : List Event) (m : Machine)
    (hg : Transition.Guarded (step cfg) (Undisturbed cfg) init es)
    (h : Transition.exec (step cfg) init es = some m) :
    (m.code .loop = [] → ∀ j, j < m.shared.seqs.length → (m.shared.seq j).finished = false →
      (m.shared.seq j).cancelled = false → (m.shared.queue ++ m.shared.running).count j = 1) ∧
    ∀ batch ∈ m.shared.batches, (batch.map Prod.fst).Nodup := by
  have hm := Transition.exec_invariant (fun m e m' hi hgood hs => hi.step hgood hs) sound_init hg h
  refine ⟨fun hidle j _ hj hcan => ?_,hm.base.batches⟩
  have hloc := hm.each .loop
  rw [hidle] at hloc
  have hnone := (hloc.resolve_right fun hf => hf).1
  have hplace := (hm.base.placed j hj).2 hcan
  rw [load,hnone j hj] at hplace
  rwa [List.count_append]

end Invariant

def undisturbed (cfg : SchedConfig) (ts : List Tid) (m : Machine) : Event → Bool
  | .call c => decide (c.caller ∈ ts)
  | .tick t _ =>
      let notices := ts.all fun u => decide (u = t) ||
        match m.code u with
        | .build _ d _ _ _ :: _ => decide (d = m.shared.waiting)
        | .assignWaiting _ _ :: _ => false
        | _ => true
      match m.code t with
      | .append _ _ :: _ => notices
      | .formWaiting d batch budget :: _ =>
          match next cfg m.shared d batch budget with
          | .take _ _ _ => decide (d = m.shared.waiting) && notices
          | _ => true
      | .removeRunning i :: _ => ts.all fun u => decide (u = t) ||
          match m.code u with
          | .scanIds _ k _ :: _ => decide (i ∉ m.shared.running.take k)
          | .scanLive k _ :: _ => decide (i ∉ m.shared.running.take k)
          | _ => true
      | _ => true

theorem Undisturbed.of_test {cfg : SchedConfig} {ts : List Tid} {m : Machine} {e : Event}
    (h : Threads.IdleOutside ts m) (hok : undisturbed cfg ts m e = true) : Undisturbed cfg m e := by
  cases e with
  | call c => trivial
  | tick t x =>
    have hnotice : (∀ u ∈ ts, (decide (u = t) || match m.code u with
          | .build _ d _ _ _ :: _ => decide (d = m.shared.waiting)
          | .assignWaiting _ _ :: _ => false
          | _ => true) = true) → ∀ u, u ≠ t → Notices m.shared (m.code u) := by
      intro hall u hu
      by_cases hm : u ∈ ts
      · have := hall u hm
        simp only [hu,decide_false,Bool.false_or] at this
        unfold Notices
        split <;> simp_all
      · rw [h u hm]
        trivial
    simp only [undisturbed,Undisturbed] at hok ⊢
    split
    · rename_i hc
      simp only [hc,List.all_eq_true] at hok
      exact hnotice hok
    · rename_i d batch budget _ hc
      simp only [hc] at hok
      intro e pre cost htake
      simp only [htake,Bool.and_eq_true,decide_eq_true_eq,List.all_eq_true] at hok
      exact ⟨hok.1,hnotice hok.2⟩
    · rename_i j _ hc
      simp only [hc,List.all_eq_true] at hok
      intro u hu
      by_cases hm : u ∈ ts
      · have := hok u hm
        simp only [hu,decide_false,Bool.false_or] at this
        unfold NotPassed
        split <;> simp_all
      · rw [h u hm]
        trivial
    · trivial

def ask (r : RequestId) : Call := .addRequest { requestId := r, inputIds := [1] } 0

def ticks (t : Tid) (n : Nat) : List Event := List.replicate n (.tick t ())

def cancelDuringStep : List Event :=
  .call (ask "a") :: ticks .loop 3 ++ .call (ask "b") :: ticks .loop 3 ++
    .call (.cancel (.http 0) "a") :: ticks (.http 0) 3 ++ .call .step :: ticks .loop 11 ++
    ticks (.http 0) 4

theorem placed_once_cancel : ∃ m, Transition.exec (step {}) init cancelDuringStep = some m ∧
    m.shared.batches = [[(1,true)]] ∧
    ((m.code .loop = [] → ∀ j, j < m.shared.seqs.length → (m.shared.seq j).finished = false →
      (m.shared.seq j).cancelled = false → (m.shared.queue ++ m.shared.running).count j = 1) ∧
    ∀ batch ∈ m.shared.batches, (batch.map Prod.fst).Nodup) := by
  have hrun : ((Transition.exec (step {}) init cancelDuringStep).map fun m =>
        m.shared.batches) = some [[(1,true)]] ∧
      Transition.checks (step {}) (undisturbed {} [.loop,.http 0]) init cancelDuringStep := by
    decide +kernel
  obtain ⟨m,hm,hbatch⟩ := Option.map_eq_some_iff.mp hrun.1
  exact ⟨m,hm,hbatch,placed_once {} cancelDuringStep m
    (.of_checks_invariant (P := Threads.IdleOutside [.loop,.http 0])
      (fun _ _ _ hi hok hs => hi.step (fun c hc => by simpa [undisturbed,hc,program] using hok) hs)
      (fun _ _ hi hok => .of_test hi hok) (fun _ _ => rfl) hrun.2) hm⟩

/-- A cancel of `a` has built its new deque when `b` is admitted: the assignment
loses `b`. -/
theorem admitted_lost : ∃ m, Transition.exec (step {}) init
      (.call (ask "a") :: ticks .loop 3 ++ .call (.cancel (.http 0) "a") :: ticks (.http 0) 6 ++
        .call (ask "b") :: ticks .loop 3 ++ ticks (.http 0) 2) = some m ∧
    m.code .loop = [] ∧ 1 < m.shared.seqs.length ∧ (m.shared.seq 1).requestId = "b" ∧
    (m.shared.seq 1).finished = false ∧ (m.shared.seq 1).cancelled = false ∧
    (m.shared.queue ++ m.shared.running).count 1 = 0 := by
  have hrun : ((Transition.exec (step {}) init
      (.call (ask "a") :: ticks .loop 3 ++ .call (.cancel (.http 0) "a") :: ticks (.http 0) 6 ++
        .call (ask "b") :: ticks .loop 3 ++ ticks (.http 0) 2)).map fun m =>
      decide (m.code .loop = [] ∧ 1 < m.shared.seqs.length ∧ (m.shared.seq 1).requestId = "b" ∧
        (m.shared.seq 1).finished = false ∧ (m.shared.seq 1).cancelled = false ∧
        (m.shared.queue ++ m.shared.running).count 1 = 0)) = some true := by
    decide +kernel
  obtain ⟨m,hm,hv⟩ := Option.map_eq_some_iff.mp hrun
  exact ⟨m,hm,of_decide_eq_true hv⟩

end SglangLite.Sched.Races
