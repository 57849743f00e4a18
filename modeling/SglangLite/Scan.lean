import Mathlib.Data.List.Infix
import Mathlib.Data.List.TakeDrop
set_option autoImplicit false

namespace Scan

universe u v

variable {α : Type u} [DecidableEq α]

def find (s : List α) : List α → Option Nat
  | [] => if s = [] then some 0 else none
  | c :: t => if s <+: c :: t then some 0 else (find s t).map (·+1)

theorem find_eq_some {s t : List α} {p : Nat} : find s t = some p ↔
    s <+: t.drop p ∧ p ≤ t.length ∧ ∀ q < p, ¬ s <+: t.drop q := by
  induction t generalizing p with
  | nil =>
    have h0 : s <+: [] ↔ s = [] := List.prefix_nil
    rw [find]
    split_ifs with hs
    · subst hs
      rw [Option.some_inj]
      refine ⟨fun h => ?_,fun h => (Nat.le_zero.mp h.2.1).symm⟩
      subst h
      exact ⟨List.nil_prefix,Nat.le_refl _,fun q hq => absurd hq (Nat.not_lt_zero q)⟩
    · refine ⟨fun h => (by cases h),fun h => absurd (h0.mp ?_) hs⟩
      simpa using h.1
  | cons c t ih =>
    rw [find]
    split_ifs with hs
    · rw [Option.some_inj]
      refine ⟨fun h => by subst h; exact ⟨hs,Nat.zero_le _,fun q hq => absurd hq (Nat.not_lt_zero q)⟩,fun h => ?_⟩
      by_contra hp
      exact h.2.2 0 (Nat.pos_of_ne_zero fun h0 => hp h0.symm) hs
    · rw [Option.map_eq_some_iff]
      constructor
      · rintro ⟨p,hp,rfl⟩
        obtain ⟨h1,h2,h3⟩ := ih.mp hp
        refine ⟨h1,Nat.succ_le_succ h2,fun q hq => ?_⟩
        cases q with
        | zero => exact hs
        | succ q => exact h3 q (Nat.lt_of_succ_lt_succ hq)
      · rintro ⟨h1,h2,h3⟩
        cases p with
        | zero => exact absurd h1 hs
        | succ p =>
          exact ⟨p,ih.mpr ⟨h1,Nat.le_of_succ_le_succ h2,fun q hq => h3 (q+1) (Nat.succ_lt_succ hq)⟩,rfl⟩

theorem find_eq_none {s t : List α} : find s t = none ↔ ¬ s <:+: t := by
  induction t with
  | nil =>
    rw [find,List.infix_nil]
    split_ifs with hs <;> simp [hs]
  | cons c t ih =>
    rw [find,List.infix_cons_iff]
    split_ifs with hs
    · simp [hs]
    · rw [Option.map_eq_none_iff,ih]
      simp [hs]

/-- The first of some stops, at equal places the one that is named first. -/
def firstStop (stops : List (List α)) (t : List α) : Nat × Option (List α) :=
  stops.foldl (fun best s =>
    match find s t with
    | some p => if p < best.1 then (p,some s) else best
    | none => best) (t.length,none)

/-- What stands before the first stop, the stop and the text after it; without a
stop it is the whole text. -/
def readUntil (stops : List (List α)) (t : List α) : List α × Option (List α) × List α :=
  let r := firstStop stops t
  match r.2 with
  | some s => (t.take r.1,some s,t.drop (r.1+s.length))
  | none => (t,none,[])

section Apart

omit [DecidableEq α]

/-- No occurrence of `s` begins within `c`, when `t` follows. -/
def Free (s c t : List α) : Prop := ∀ p < c.length, ¬ s <+: (c ++ t).drop p

/-- No end of `s` is the beginning of `t`, or the other way round. -/
def Apart (s t : List α) : Prop :=
  ∀ k < s.length, 0 < k → ¬ s.drop k <+: t ∧ ¬ t <+: s.drop k

/-- What does not stand in `c` and does not reach from it into `t` does not begin
in it. -/
theorem free_of_apart {s c t : List α} (h : ¬ s <:+: c) (ha : Apart s t) (r : List α) :
    Free s c (t ++ r) := by
  rintro p hp hs
  rw [List.drop_append_of_le_length (Nat.le_of_lt hp)] at hs
  rcases Nat.lt_or_ge (c.drop p).length s.length with hlt | hge
  · obtain ⟨x,hx⟩ := hs
    have hpos : 0 < (c.drop p).length := by rw [List.length_drop]; omega
    obtain ⟨y,hy⟩ : c.drop p <+: s := List.prefix_of_prefix_length_le ⟨_,rfl⟩ ⟨x,hx⟩ (Nat.le_of_lt hlt)
    have hdrop : s.drop (c.drop p).length = y := by rw [← hy,List.drop_left]
    rw [← hy,List.append_assoc] at hx
    have hyt : y ++ x = t ++ r := List.append_cancel_left hx
    have hap := ha _ hlt hpos
    rw [hdrop] at hap
    have hy' : y <+: t ++ r := ⟨x,hyt⟩
    rcases List.prefix_or_prefix_of_prefix hy' (List.prefix_append t r) with h1 | h1
    · exact hap.1 h1
    · exact hap.2 h1
  · obtain ⟨y,hy⟩ := List.prefix_of_prefix_length_le hs (List.prefix_append _ _) hge
    exact h ⟨c.take p,y,by rw [List.append_assoc,hy,List.take_append_drop]⟩

def Differ (s t : List α) : Prop := ¬ s <+: t ∧ ¬ t <+: s

theorem Differ.not_start {s t : List α} (h : Differ s t) (r : List α) : ¬ s <+: t ++ r := fun hs =>
  (List.prefix_or_prefix_of_prefix hs (List.prefix_append t r)).elim h.1 h.2

theorem infix_of_append_left {s a t : List α} (hs : s ≠ []) (ha : ∀ x ∈ a, x ∉ s) (h : s <:+: a ++ t) :
    s <:+: t := by
  induction a with
  | nil => exact h
  | cons x a ih =>
    rw [List.cons_append,List.infix_cons_iff] at h
    rcases h with h | h
    · obtain ⟨y,s',rfl⟩ := List.exists_cons_of_ne_nil hs
      rw [List.cons_prefix_cons] at h
      exact absurd (h.1 ▸ List.mem_cons_self) (ha x List.mem_cons_self)
    · exact ih (fun y hy => ha y (List.mem_cons_of_mem _ hy)) h

theorem infix_of_append_right {s a t : List α} (hs : s ≠ []) (ha : ∀ x ∈ a, x ∉ s) (h : s <:+: t ++ a) :
    s <:+: t := by
  rw [← List.reverse_infix] at h ⊢
  rw [List.reverse_append] at h
  exact infix_of_append_left (by simpa using hs) (by simpa using ha) h

theorem infix_of_cons {s a t : List α} {x : α} (hx : x ∉ s) (h : s <:+: a ++ x :: t) :
    s <:+: a ∨ s <:+: t := by
  induction a with
  | nil =>
    rcases List.infix_cons_iff.mp h with h | h
    · cases s with
      | nil => exact .inl (List.infix_refl [])
      | cons y s =>
        rw [List.cons_prefix_cons] at h
        exact absurd (h.1 ▸ List.mem_cons_self) hx
    · exact .inr h
  | cons y a ih =>
    rw [List.cons_append,List.infix_cons_iff] at h
    rcases h with h | h
    · rcases Nat.lt_or_ge (y :: a).length s.length with hlt | hge
      · have hpre : (y :: a) ++ [x] <+: s := by
          have hall : (y :: a) ++ [x] <+: y :: (a ++ x :: t) := ⟨t,by simp⟩
          refine List.prefix_of_prefix_length_le hall h ?_
          rw [List.length_append,List.length_singleton]
          exact hlt
        exact absurd (hpre.subset (List.mem_append_right _ (List.mem_singleton_self x))) hx
      · exact .inl (List.prefix_of_prefix_length_le h (List.prefix_append (y :: a) (x :: t)) hge).isInfix
    · rcases ih h with h | h
      · exact .inl (h.trans (List.suffix_cons y a).isInfix)
      · exact .inr h

end Apart

instance (s t : List α) : Decidable (Apart s t) :=
  inferInstanceAs (Decidable (∀ k < s.length, 0 < k → ¬ s.drop k <+: t ∧ ¬ t <+: s.drop k))

instance (s t : List α) : Decidable (Differ s t) :=
  inferInstanceAs (Decidable (¬ s <+: t ∧ ¬ t <+: s))

section First

variable {stops : List (List α)} {t : List α}

theorem firstStop_concat (s : List α) : firstStop (stops ++ [s]) t =
    match find s t with
    | some p => if p < (firstStop stops t).1 then (p,some s) else firstStop stops t
    | none => firstStop stops t := by
  rw [firstStop,List.foldl_append]
  rfl

theorem firstStop_before {s : List α} (hs : s ∈ stops) {q : Nat} (hq : q < (firstStop stops t).1) :
    ¬ s <+: t.drop q := by
  induction stops using List.reverseRecOn with
  | nil => exact absurd hs List.not_mem_nil
  | append_singleton stops s' ih =>
    rw [firstStop_concat] at hq
    cases hf : find s' t with
    | none =>
      rw [hf] at hq
      rcases List.mem_append.mp hs with h | h
      · exact ih h hq
      · rw [List.mem_singleton.mp h]
        exact fun hp => find_eq_none.mp hf (hp.isInfix.trans (List.drop_suffix q t).isInfix)
    | some p =>
      obtain ⟨_,_,hfirst⟩ := find_eq_some.mp hf
      rw [hf] at hq
      simp only at hq
      split_ifs at hq with hp
      · rcases List.mem_append.mp hs with h | h
        · exact ih h (Nat.lt_trans hq hp)
        · exact List.mem_singleton.mp h ▸ hfirst q hq
      · rcases List.mem_append.mp hs with h | h
        · exact ih h hq
        · exact List.mem_singleton.mp h ▸ hfirst q (Nat.lt_of_lt_of_le hq (Nat.not_lt.mp hp))

theorem firstStop_at :
    (∀ s, (firstStop stops t).2 = some s → s ∈ stops ∧ find s t = some (firstStop stops t).1) ∧
      ((firstStop stops t).2 = none → (firstStop stops t).1 = t.length) := by
  induction stops using List.reverseRecOn with
  | nil => exact ⟨fun s hs => (by cases hs),fun _ => rfl⟩
  | append_singleton stops s' ih =>
    have hkeep : (∀ s, (firstStop stops t).2 = some s →
        s ∈ stops ++ [s'] ∧ find s t = some (firstStop stops t).1) :=
      fun s hs => ⟨List.mem_append_left _ (ih.1 s hs).1,(ih.1 s hs).2⟩
    rw [firstStop_concat]
    cases hf : find s' t with
    | none => exact ⟨hkeep,ih.2⟩
    | some p =>
      simp only
      split_ifs with hp
      · refine ⟨fun s hs => ?_,fun hs => (by cases hs)⟩
        cases hs
        exact ⟨List.mem_append_right _ (List.mem_singleton_self s'),hf⟩
      · exact ⟨hkeep,ih.2⟩

/-- A stop that is found: the text is taken apart there, and no stop stands
before it. -/
theorem readUntil_some {c s r : List α} (h : readUntil stops t = (c,some s,r)) :
    s ∈ stops ∧ t = c ++ (s ++ r) ∧ ∀ s' ∈ stops, Free s' c (s ++ r) := by
  simp only [readUntil] at h
  cases hs : (firstStop stops t).2 with
  | none => rw [hs] at h; cases h
  | some s₁ =>
    rw [hs] at h
    cases h
    obtain ⟨hmem,hf⟩ := firstStop_at.1 _ hs
    obtain ⟨hat,hle,_⟩ := find_eq_some.mp hf
    have ht : t = t.take (firstStop stops t).1 ++ (s ++ t.drop ((firstStop stops t).1+s.length)) := by
      obtain ⟨y,hy⟩ := hat
      have hy' : t.drop ((firstStop stops t).1+s.length) = y := by
        rw [← List.drop_drop,← hy,List.drop_left]
      rw [hy',hy,List.take_append_drop]
    refine ⟨hmem,ht,fun s' hs' p hp => ?_⟩
    rw [← ht]
    rw [List.length_take] at hp
    exact firstStop_before hs' (Nat.lt_of_lt_of_le hp (Nat.min_le_left _ _))

theorem readUntil_none {c r : List α} (h : readUntil stops t = (c,none,r)) :
    c = t ∧ r = [] := by
  simp only [readUntil] at h
  cases hs : (firstStop stops t).2 with
  | none => rw [hs] at h; cases h; exact ⟨rfl,rfl⟩
  | some s₁ => rw [hs] at h; cases h

theorem readUntil_miss (hno : ∀ s ∈ stops, ¬ s <:+: t) : readUntil stops t = (t,none,[]) := by
  simp only [readUntil]
  cases hs : (firstStop stops t).2 with
  | none => rfl
  | some s =>
    obtain ⟨hmem,hf⟩ := firstStop_at.1 s hs
    rw [find_eq_none.mpr (hno s hmem)] at hf
    cases hf

/-- A stop is found where it stands, when no stop begins before it and no other
stop begins with it. -/
theorem readUntil_hit {c s r : List α} (hs : s ∈ stops) (hne : s ≠ [])
    (hfree : ∀ s' ∈ stops, Free s' c (s ++ r)) (honly : ∀ s' ∈ stops, s' <+: s ++ r → s' = s) :
    readUntil stops (c ++ (s ++ r)) = (c,some s,r) := by
  have hat : s <+: (c ++ (s ++ r)).drop c.length := by rw [List.drop_left]; exact List.prefix_append _ _
  have hle : (firstStop stops (c ++ (s ++ r))).1 ≤ c.length :=
    Nat.not_lt.mp fun hlt => firstStop_before hs hlt hat
  simp only [readUntil]
  cases hf : (firstStop stops (c ++ (s ++ r))).2 with
  | none =>
    have hlen := firstStop_at.2 hf
    have hpos := List.length_pos_of_ne_nil hne
    rw [hlen,List.length_append,List.length_append] at hle
    omega
  | some s₁ =>
    obtain ⟨hmem,hfind⟩ := firstStop_at.1 _ hf
    obtain ⟨hat₁,_,_⟩ := find_eq_some.mp hfind
    have heq : (firstStop stops (c ++ (s ++ r))).1 = c.length :=
      Nat.le_antisymm hle (Nat.not_lt.mp fun hlt => hfree s₁ hmem _ hlt hat₁)
    rw [heq,List.drop_left] at hat₁
    obtain rfl := honly s₁ hmem hat₁
    simp only [heq,List.take_left,← List.drop_drop,List.drop_left]

theorem readUntil_next {c s : List α} (hs : s ∈ stops) (hne : s ≠ []) (hc : ∀ s' ∈ stops, ¬ s' <:+: c)
    (hmark : ∀ s' ∈ stops, Apart s' s ∧ (s' ≠ s → Differ s' s)) (r : List α) :
    readUntil stops (c ++ (s ++ r)) = (c,some s,r) := by
  refine readUntil_hit hs hne (fun s' hs' => free_of_apart (hc s' hs') (hmark s' hs').1 r)
    fun s' hs' hp => ?_
  by_contra hne'
  exact ((hmark s' hs').2 hne').not_start r hp

/-- A beginning of a text stops before the stop is complete, and is then read as a
whole, or it is read up to the stop like the text. -/
theorem readUntil_cut {c s cut : List α} (h : ∀ r, readUntil stops (c ++ (s ++ r)) = (c,some s,r))
    (hin : ∀ s' ∈ stops, ¬ s' <:+: s.dropLast) (hcut : cut <+: c ++ (s ++ t)) :
    (readUntil stops cut = (cut,none,[]) ∧ cut.length < c.length+s.length) ∨
      ∃ t', t' <+: t ∧ cut = c ++ (s ++ t') ∧ readUntil stops cut = (c,some s,t') := by
  rcases Nat.lt_or_ge cut.length (c.length+s.length) with hlt | hge
  · refine .inl ⟨readUntil_miss fun s' hs' => ?_,hlt⟩
    rintro ⟨x,y,hx⟩
    have hat : s' <+: (c ++ (s ++ t)).drop x.length := by
      have hdrop := hcut.drop x.length
      rw [← hx,List.append_assoc,List.drop_left] at hdrop
      exact (List.prefix_append s' y).trans hdrop
    have hc : c.length ≤ x.length := Nat.not_lt.mp fun hp => (readUntil_some (h t)).2.2 s' hs' _ hp hat
    -- what is left of the beginning after `c` is a proper part of the stop
    have htail : cut.drop c.length <+: s ++ t := by
      have hdrop := hcut.drop c.length
      rwa [List.drop_left] at hdrop
    have hpart : cut.drop c.length <+: s.dropLast := by
      refine List.prefix_of_prefix_length_le htail ((List.dropLast_prefix s).trans (List.prefix_append s t)) ?_
      rw [List.length_drop,List.length_dropLast]
      omega
    have hs'cut : s' <:+: cut.drop c.length := by
      rw [← hx,List.append_assoc,List.drop_append_of_le_length hc]
      exact ⟨x.drop c.length,y,List.append_assoc _ _ _⟩
    exact hin s' hs' (hs'cut.trans hpart.isInfix)
  · have hpre : c ++ s <+: cut := by
      refine List.prefix_of_prefix_length_le ?_ hcut (by rw [List.length_append]; exact hge)
      exact ⟨t,List.append_assoc _ _ _⟩
    obtain ⟨t',rfl⟩ := hpre
    rw [List.append_assoc] at hcut ⊢
    rw [List.prefix_append_right_inj,List.prefix_append_right_inj] at hcut
    exact .inr ⟨t',hcut,rfl,h t'⟩

end First

section Lazy

omit [DecidableEq α]

variable {β : Type v}

/-- The shortest beginning after which the rest is accepted. -/
def lazy (accept : List α → Option β) : List α → Option (List α × β)
  | [] => (accept []).map fun b => ([],b)
  | a :: t =>
      match accept (a :: t) with
      | some b => some ([],b)
      | none => (lazy accept t).map fun r => (a :: r.1,r.2)

theorem lazy_hit {accept : List α → Option β} {c t : List α} {b : β} (hb : accept t = some b)
    (hno : ∀ p < c.length, accept ((c ++ t).drop p) = none) : lazy accept (c ++ t) = some (c,b) := by
  induction c with
  | nil =>
    rw [List.nil_append]
    cases t with
    | nil => rw [lazy,hb]; rfl
    | cons a t => rw [lazy,hb]
  | cons a c ih =>
    have h0 := hno 0 (Nat.zero_lt_succ _)
    rw [List.drop_zero] at h0
    rw [List.cons_append] at h0 ⊢
    rw [lazy,h0,ih fun p hp => hno (p+1) (Nat.succ_lt_succ hp)]
    rfl

theorem lazy_some {accept : List α → Option β} {t c : List α} {b : β} (h : lazy accept t = some (c,b)) :
    ∃ r, t = c ++ r ∧ accept r = some b := by
  induction t generalizing c with
  | nil =>
    rw [lazy,Option.map_eq_some_iff] at h
    obtain ⟨b',hb,h⟩ := h
    cases h
    exact ⟨[],rfl,hb⟩
  | cons a t ih =>
    rw [lazy] at h
    cases ha : accept (a :: t) with
    | some b' =>
      rw [ha] at h
      cases h
      exact ⟨a :: t,rfl,ha⟩
    | none =>
      simp only [ha] at h
      obtain ⟨r,hr,h⟩ := Option.map_eq_some_iff.mp h
      cases h
      obtain ⟨r',ht,hb⟩ := ih hr
      exact ⟨r',by rw [List.cons_append,← ht],hb⟩

end Lazy

end Scan
