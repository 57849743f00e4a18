set_option autoImplicit false

namespace Transition

universe u v

variable {σ : Type u} {ε : Type v}

/-- Run a list of events. A run whose next event is not enabled has no result. -/
def exec (step : σ → ε → Option σ) : σ → List ε → Option σ
  | s, [] => some s
  | s, e :: es => (step s e).bind fun s' => exec step s' es

def Guarded (step : σ → ε → Option σ) (good : σ → ε → Prop) : σ → List ε → Prop
  | _, [] => True
  | s, e :: es => good s e ∧ ∀ s', step s e = some s' → Guarded step good s' es

variable {step : σ → ε → Option σ} {good : σ → ε → Prop}

/-- What every good step preserves, every run of good steps preserves. -/
theorem exec_invariant {P : σ → Prop}
    (hstep : ∀ s e s', P s → good s e → step s e = some s' → P s')
    {s s' : σ} {es : List ε} (hi : P s) (hg : Guarded step good s es)
    (h : exec step s es = some s') : P s' := by
  induction es generalizing s with
  | nil =>
    simp only [exec,Option.some.injEq] at h
    exact h ▸ hi
  | cons e es ih =>
    obtain ⟨t,ht,hr⟩ := Option.bind_eq_some_iff.mp h
    exact ih (hstep s e t hi hg.1 ht) (hg.2 t ht) hr

theorem exec_always {P : σ → Prop} (hstep : ∀ s e s', P s → step s e = some s' → P s')
    {s s' : σ} {es : List ε} (hi : P s) (h : exec step s es = some s') : P s' := by
  induction es generalizing s with
  | nil =>
    simp only [exec,Option.some.injEq] at h
    exact h ▸ hi
  | cons e es ih =>
    obtain ⟨t,ht,hr⟩ := Option.bind_eq_some_iff.mp h
    exact ih (hstep s e t hi ht) hr

theorem Guarded.mono {good' : σ → ε → Prop} (hgg : ∀ s e, good s e → good' s e)
    {s : σ} {es : List ε} (hg : Guarded step good s es) : Guarded step good' s es := by
  induction es generalizing s with
  | nil => trivial
  | cons e es ih => exact ⟨hgg s e hg.1,fun t ht => ih (hg.2 t ht)⟩

theorem Guarded.of_invariant {good' : σ → ε → Prop} {P : σ → Prop}
    (hstep : ∀ s e s', P s → step s e = some s' → P s')
    (hgg : ∀ s e, P s → good s e → good' s e) {s : σ} {es : List ε} (hi : P s)
    (hg : Guarded step good s es) : Guarded step good' s es := by
  induction es generalizing s with
  | nil => trivial
  | cons e es ih => exact ⟨hgg s e hi hg.1,fun t ht => ih (hstep s e t hi ht) (hg.2 t ht)⟩

theorem Guarded.of_forall (h : ∀ s e, good s e) (s : σ) (es : List ε) : Guarded step good s es := by
  induction es generalizing s with
  | nil => trivial
  | cons e es ih => exact ⟨h s e,fun t _ => ih t⟩

def checks (step : σ → ε → Option σ) (ok : σ → ε → Bool) : σ → List ε → Bool
  | _, [] => true
  | s, e :: es =>
      ok s e && match step s e with
        | some s' => checks step ok s' es
        | none => true

/-- The test has to mean what it tests only in states that tested runs reach. -/
theorem Guarded.of_checks_invariant {ok : σ → ε → Bool} {P : σ → Prop}
    (hstep : ∀ s e s', P s → ok s e = true → step s e = some s' → P s')
    (hok : ∀ s e, P s → ok s e = true → good s e) {s : σ} {es : List ε} (hi : P s)
    (h : checks step ok s es = true) : Guarded step good s es := by
  induction es generalizing s with
  | nil => trivial
  | cons e es ih =>
    simp only [checks,Bool.and_eq_true] at h
    refine ⟨hok s e hi h.1,fun t ht => ih (hstep s e t hi h.1 ht) ?_⟩
    have := h.2
    rwa [ht] at this

theorem Guarded.of_checks {ok : σ → ε → Bool} (hok : ∀ s e, ok s e = true → good s e)
    {s : σ} {es : List ε} (h : checks step ok s es = true) : Guarded step good s es :=
  of_checks_invariant (P := fun _ => True) (fun _ _ _ _ _ _ => trivial) (fun s e _ => hok s e)
    trivial h

def Always (step : σ → ε → Option σ) (P : σ → Prop) : σ → List ε → Prop
  | s, [] => P s
  | s, e :: es => P s ∧ ∀ s', step s e = some s' → Always step P s' es

theorem Always.last {P : σ → Prop} {s s' : σ} {es : List ε} (h : Always step P s es)
    (hr : exec step s es = some s') : P s' := by
  induction es generalizing s with
  | nil =>
    simp only [exec,Option.some.injEq] at hr
    exact hr ▸ h
  | cons e es ih =>
    obtain ⟨t,ht,hr⟩ := Option.bind_eq_some_iff.mp hr
    exact ih (h.2 t ht) hr

/-- A step keeps the invariant when it is good, and breaks what the invariant
implies when it is not: the property holds throughout a run exactly when all
its steps are good. -/
theorem always_iff_guarded {P Q : σ → Prop} {pre : σ → ε → Prop} (himp : ∀ s, P s → Q s)
    (hkeep : ∀ s e s', P s → pre s e → good s e → step s e = some s' → P s')
    (hbreak : ∀ s e s', P s → ¬ good s e → step s e = some s' → ¬ Q s')
    {s s' : σ} {es : List ε} (hi : P s) (hpre : Guarded step pre s es) (h : exec step s es = some s') :
    Always step Q s es ↔ Guarded step good s es := by
  induction es generalizing s with
  | nil => simp [Always,Guarded,himp s hi]
  | cons e es ih =>
    obtain ⟨t,ht,hr⟩ := Option.bind_eq_some_iff.mp h
    have hfirst : Always step Q t es → good s e := by
      refine fun ha => Classical.byContradiction fun hng => hbreak s e t hi hng ht ?_
      cases es with
      | nil => exact ha
      | cons e' es => exact ha.1
    constructor
    · rintro ⟨_,ha⟩
      have hgood := hfirst (ha t ht)
      refine ⟨hgood,fun t' ht' => ?_⟩
      obtain rfl : t = t' := Option.some.inj (ht.symm.trans ht')
      exact (ih (hkeep s e t hi hpre.1 hgood ht) (hpre.2 t ht) hr).mp (ha t ht)
    · rintro ⟨hgood,hg⟩
      refine ⟨himp s hi,fun t' ht' => ?_⟩
      obtain rfl : t = t' := Option.some.inj (ht.symm.trans ht')
      exact (ih (hkeep s e t hi hpre.1 hgood ht) (hpre.2 t ht) hr).mpr (hg t ht)

end Transition
