import Mathlib.Logic.Function.Basic
import SglangLite.Transition

set_option autoImplicit false

namespace Threads

variable {τ σ ι χ κ : Type}

/-- Threads over a shared state, each with the instructions it has still to
execute. -/
structure Machine (τ σ ι : Type) where
  shared : σ
  code : τ → List ι

/-- A call is taken up by its thread, or a thread executes its next
instruction with an outcome from outside. -/
inductive Event (τ χ κ : Type) where
  | call (c : κ)
  | tick (t : τ) (x : χ)
  deriving DecidableEq, Repr

/-- What a machine executes: the thread and the body of every call, and for an
instruction and what stands after it the shared state and the instructions
that follow; `none` when the thread has to wait. -/
structure Program (τ σ ι χ κ : Type) where
  caller : κ → τ
  body : κ → List ι
  exec : τ → σ → ι → List ι → χ → Option (σ × List ι)

/-- Run one thread alone to the end of its instructions; `none` when it waits
or the steps are used up. -/
def alone (p : Program τ σ ι χ κ) (t : τ) (x : χ) : Nat → σ → List ι → Option σ
  | _, s, [] => some s
  | 0, _, _ :: _ => none
  | n+1, s, i :: rest => (p.exec t s i rest x).bind fun r => alone p t x n r.1 r.2

def Ends (p : Program τ σ ι χ κ) (t : τ) (x : χ) (s : σ) (code : List ι) (s' : σ) : Prop :=
  ∃ n, alone p t x n s code = some s'

theorem ends_nil (p : Program τ σ ι χ κ) (t : τ) (x : χ) (s : σ) : Ends p t x s [] s :=
  ⟨0,by simp [alone]⟩

theorem Ends.step {p : Program τ σ ι χ κ} {t : τ} {x : χ} {s s₁ s' : σ} {i : ι} {rest code : List ι}
    (hx : p.exec t s i rest x = some (s₁,code)) (h : Ends p t x s₁ code s') :
    Ends p t x s (i :: rest) s' := by
  obtain ⟨n,hn⟩ := h
  exact ⟨n+1,by simp [alone,hx,hn]⟩

variable [DecidableEq τ]

/-- A thread takes up a call only when it has nothing left to execute. -/
def step (p : Program τ σ ι χ κ) (m : Machine τ σ ι) : Event τ χ κ → Option (Machine τ σ ι)
  | .call c =>
      match m.code (p.caller c) with
      | [] => some { m with code := Function.update m.code (p.caller c) (p.body c) }
      | _ :: _ => none
  | .tick t x =>
      match m.code t with
      | [] => none
      | i :: rest => (p.exec t m.shared i rest x).map fun r =>
          { shared := r.1, code := Function.update m.code t r.2 }

variable {p : Program τ σ ι χ κ} {m m' : Machine τ σ ι}

theorem step_call {c : κ} (h : step p m (.call c) = some m') :
    m.code (p.caller c) = [] ∧
      m' = { m with code := Function.update m.code (p.caller c) (p.body c) } := by
  simp only [step] at h
  split at h
  · rename_i hidle
    exact ⟨hidle,(Option.some.inj h).symm⟩
  · cases h

theorem step_tick {t : τ} {x : χ} (h : step p m (.tick t x) = some m') :
    ∃ i rest s code, m.code t = i :: rest ∧ p.exec t m.shared i rest x = some (s,code) ∧
      m' = { shared := s, code := Function.update m.code t code } := by
  simp only [step] at h
  split at h
  · cases h
  · rename_i i rest hcode
    obtain ⟨⟨s,code⟩,hx,rfl⟩ := Option.map_eq_some_iff.mp h
    exact ⟨i,rest,s,code,hcode,hx,rfl⟩

def Each (Q : τ → σ → List ι → Prop) (m : Machine τ σ ι) : Prop := ∀ t, Q t m.shared (m.code t)

/-- A step keeps what every thread may assume, when the thread that takes it
keeps its own part and does not disturb the part of another. -/
theorem Each.step {Q : τ → σ → List ι → Prop} (good : Machine τ σ ι → Event τ χ κ → Prop)
    (hcall : ∀ s c, Q (p.caller c) s [] → Q (p.caller c) s (p.body c))
    (hown : ∀ m t x i rest s code, Each Q m → good m (.tick t x) → m.code t = i :: rest →
      p.exec t m.shared i rest x = some (s,code) → Q t s code)
    (hother : ∀ m t u x i rest s code, Each Q m → good m (.tick t x) → m.code t = i :: rest →
      p.exec t m.shared i rest x = some (s,code) → u ≠ t → Q u s (m.code u))
    {e : Event τ χ κ} (h : Each Q m) (hg : good m e) (hs : step p m e = some m') : Each Q m' := by
  cases e with
  | call c =>
    obtain ⟨hidle,rfl⟩ := step_call hs
    intro t
    by_cases ht : t = p.caller c
    · subst ht
      simp only [Function.update_self]
      exact hcall _ c (hidle ▸ h (p.caller c))
    · simp only [Function.update_of_ne ht]
      exact h t
  | tick t x =>
    obtain ⟨i,rest,s,code,hc,hx,rfl⟩ := step_tick hs
    intro u
    by_cases hu : u = t
    · subst hu
      simp only [Function.update_self]
      exact hown m u x i rest s code h hg hc hx
    · simp only [Function.update_of_ne hu]
      exact hother m t u x i rest s code h hg hc hx hu

def IdleOutside (ts : List τ) (m : Machine τ σ ι) : Prop := ∀ u, u ∉ ts → m.code u = []

theorem IdleOutside.step {ts : List τ} {e : Event τ χ κ} (h : IdleOutside ts m)
    (hc : ∀ c, e = .call c → p.caller c ∈ ts) (hs : step p m e = some m') : IdleOutside ts m' := by
  intro u hu
  cases e with
  | call c =>
    obtain ⟨_,rfl⟩ := step_call hs
    have hne : u ≠ p.caller c := fun he => hu (he ▸ hc c rfl)
    simpa [hne] using h u hu
  | tick t x =>
    obtain ⟨i,rest,s,code,hcode,_,rfl⟩ := step_tick hs
    have hne : u ≠ t := fun he => by
      subst he
      rw [h u hu] at hcode
      cases hcode
    simpa [hne] using h u hu

end Threads
