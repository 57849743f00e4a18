import SglangLite.Hybrid.Engine

set_option autoImplicit false

namespace SglangLite.Hybrid
open Kv Sched Text

namespace Engine

variable {cfg : Config} {e e' : Engine}

theorem seq_modify (e : Engine) (i j : SeqId) (f : Sequence → Sequence) :
    (e.modify i f).seq j = if j = i ∧ i < e.sched.seqs.length then f (e.seq i) else e.seq j :=
  Scheduler.seq_modify e.sched i j f

theorem seq_modify_field {α : Type} (g : Sequence → α) {f : Sequence → Sequence}
    (hf : ∀ q, g (f q) = g q) (i j : SeqId) : g ((e.modify i f).seq j) = g (e.seq j) := by
  rw [seq_modify]
  split_ifs with h
  · rw [hf,h.1]
  · rfl

theorem v4Seq_attach (e : Engine) (i j : SeqId) (f : V4Seq → V4Seq) :
    (e.attach i f).v4Seq j = if j = i ∧ i < e.v4.length then f (e.v4Seq i) else e.v4Seq j := by
  simp only [v4Seq,attach,List.getD_eq_getElem?_getD,List.getElem?_modify]
  by_cases hij : i = j
  · subst hij
    by_cases hi : i < e.v4.length
    · simp [hi]
    · simp [hi]
  · simp [hij,Ne.symm hij]

theorem v4Seq_attach_field {α : Type} (g : V4Seq → α) {f : V4Seq → V4Seq} (hf : ∀ q, g (f q) = g q)
    (i j : SeqId) : g ((e.attach i f).v4Seq j) = g (e.v4Seq j) := by
  rw [v4Seq_attach]
  split_ifs with h
  · rw [hf,h.1]
  · rfl

/-- The moves of the machine, one constructor for each place in which an event
finds the loop thread. -/
inductive Moves (cfg : Config) (e : Engine) : Event → Engine → Prop
  | addRequest {r : Request} {e' : Engine} (hpc : e.pc = .idle)
      (hr : e.addRequest cfg r = some e') : Moves cfg e (.addRequest r) e'
  | reject {r : RequestId} {d : Delta} (hpc : e.pc = .idle) : Moves cfg e (.reject r d) (e.emit d r true)
  | cancel {r : RequestId} {d : Delta} : Moves cfg e (.cancel r d) (e.cancelRequest r d)
  | timeout {r : RequestId} {d : Delta} (hpc : e.pc = .idle) :
      Moves cfg e (.timeout r d) (e.cancelRequest r d)
  | step {pc : Pc} (hpc : e.pc = .idle)
      (hpc' : pc = if (e.sched.step cfg.sched).2 = [] then .idle
        else .stepped (e.sched.step cfg.sched).2) :
      Moves cfg e .step { e with sched := (e.sched.step cfg.sched).1, pc := pc }
  | check {batch : List (SeqId × Bool)} (hpc : e.pc = .stepped batch) :
      Moves cfg e .check { e with pc := .inBatch batch (runBatch e.sched batch) (fun _ => none) }
  | call {batch : List (SeqId × Bool)} {op : Op} {rest todo : List Op}
      {results results' : SeqId → Option Token} {tok : Token} {raises : Bool}
      {ds : RequestId → Delta} {e₁ : Engine} (hpc : e.pc = .inBatch batch (op :: rest) results)
      (hx : execOp cfg e rest tok raises op = (e₁,true,todo))
      (hr : results' = match Op.result op with
        | some i => Function.update results i (some tok)
        | none => results) :
      Moves cfg e (.exec tok raises ds) { e₁ with pc := .inBatch batch todo results' }
  | abort {batch : List (SeqId × Bool)} {op : Op} {rest todo : List Op}
      {results : SeqId → Option Token} {tok : Token} {raises : Bool}
      {ds : RequestId → Delta} {e₁ : Engine} (hpc : e.pc = .inBatch batch (op :: rest) results)
      (hx : execOp cfg e rest tok raises op = (e₁,false,todo)) :
      Moves cfg e (.exec tok raises ds) (abortBatch ds e₁ batch)
  | burstCall {i : SeqId} {before : Nat} {op : Op} {rest todo : List Op} {toks toks' : List Token}
      {tok : Token} {raises : Bool} {ds : RequestId → Delta} {e₁ : Engine}
      (hpc : e.pc = .bursting i before (op :: rest) toks)
      (hx : execOp cfg e rest tok raises op = (e₁,true,todo)) :
      Moves cfg e (.exec tok raises ds) { e₁ with pc := .bursting i before todo toks' }
  | burstAbort {i : SeqId} {before : Nat} {op : Op} {rest todo : List Op} {toks : List Token}
      {tok : Token} {raises : Bool} {ds : RequestId → Delta} {e₁ : Engine}
      (hpc : e.pc = .bursting i before (op :: rest) toks)
      (hx : execOp cfg e rest tok raises op = (e₁,false,todo)) :
      Moves cfg e (.exec tok raises ds) (leaveBurst cfg e₁ i before)
  | finishBatch {batch : List (SeqId × Bool)} {results : SeqId → Option Token}
      (hpc : e.pc = .inBatch batch [] results) :
      Moves cfg e .finishBatch (leaveBatch cfg e batch results)
  | post {i : SeqId} {tok : Option Token} {pre cancelled : Bool} {d : Delta} {prev : Text}
      {rest : List (SeqId × Option Token × Bool)} (hpc : e.pc = .posting ((i,tok,pre) :: rest)) :
      Moves cfg e (.post cancelled prev d)
        { postOne cfg e i tok pre cancelled prev d with pc := .posting rest }
  | postDone {cancelled : Bool} {d : Delta} {prev : Text} (hpc : e.pc = .posting []) :
      Moves cfg e (.post cancelled prev d) { e with sched := e.sched.dropFinished, pc := .idle }
  | finishBurst {i : SeqId} {before : Nat} {toks : List Token} {prev : Text} {d : Delta} {e₁ : Engine}
      (hpc : e.pc = .bursting i before [] toks)
      (h₁ : e₁ = e.applyPost i (postBurst cfg.tk cfg.eos (e.seq i) toks prev) d) :
      Moves cfg e (.finishBurst prev d) { e₁ with sched := e₁.sched.dropFinished, pc := .idle }

theorem step_moves {ev : Event} (hs : e.step cfg ev = some e') : Moves cfg e ev e' := by
  cases ev with
  | addRequest r =>
    cases hp : e.pc with
    | idle =>
      simp only [Engine.step,hp] at hs
      exact .addRequest hp hs
    | _ => simp [Engine.step,hp] at hs
  | reject r d =>
    cases hp : e.pc with
    | idle =>
      simp only [Engine.step,hp,Option.some.injEq] at hs
      exact hs ▸ .reject hp
    | _ => simp [Engine.step,hp] at hs
  | cancel r d =>
    simp only [Engine.step,Option.some.injEq] at hs
    exact hs ▸ .cancel
  | timeout r d =>
    cases hp : e.pc with
    | idle =>
      simp only [Engine.step,hp,Option.some.injEq] at hs
      exact hs ▸ .timeout hp
    | _ => simp [Engine.step,hp] at hs
  | step =>
    cases hp : e.pc with
    | idle =>
      simp only [Engine.step,hp,Option.some.injEq] at hs
      exact hs ▸ .step hp rfl
    | _ => simp [Engine.step,hp] at hs
  | check =>
    cases hp : e.pc with
    | stepped batch =>
      simp only [Engine.step,hp,Option.some.injEq] at hs
      exact hs ▸ .check hp
    | _ => simp [Engine.step,hp] at hs
  | exec tok raises ds =>
    cases hp : e.pc with
    | inBatch batch todo results =>
      cases todo with
      | nil => simp [Engine.step,hp] at hs
      | cons op rest =>
        simp only [Engine.step,hp] at hs
        cases hx : execOp cfg e rest tok raises op with
        | mk e₁ w =>
          obtain ⟨ok,todo⟩ := w
          rw [hx] at hs
          cases ok with
          | true => exact Option.some.inj hs ▸ .call hp hx rfl
          | false => exact Option.some.inj hs ▸ .abort hp hx
    | bursting i before todo toks =>
      cases todo with
      | nil => simp [Engine.step,hp] at hs
      | cons op rest =>
        simp only [Engine.step,hp] at hs
        cases hx : execOp cfg e rest tok raises op with
        | mk e₁ w =>
          obtain ⟨ok,todo⟩ := w
          rw [hx] at hs
          cases ok with
          | true => exact Option.some.inj hs ▸ .burstCall hp hx
          | false => exact Option.some.inj hs ▸ .burstAbort hp hx
    | _ => simp [Engine.step,hp] at hs
  | finishBatch =>
    cases hp : e.pc with
    | inBatch batch todo results =>
      cases todo with
      | nil =>
        simp only [Engine.step,hp,Option.some.injEq] at hs
        exact hs ▸ .finishBatch hp
      | cons op rest => simp [Engine.step,hp] at hs
    | _ => simp [Engine.step,hp] at hs
  | post cancelled prev d =>
    cases hp : e.pc with
    | posting todo =>
      cases todo with
      | nil =>
        simp only [Engine.step,hp,Option.some.injEq] at hs
        exact hs ▸ .postDone hp
      | cons t todo =>
        obtain ⟨i,tok,pre⟩ := t
        simp only [Engine.step,hp,Option.some.injEq] at hs
        exact hs ▸ .post hp
    | _ => simp [Engine.step,hp] at hs
  | finishBurst prev d =>
    cases hp : e.pc with
    | bursting i before todo toks =>
      cases todo with
      | nil =>
        simp only [Engine.step,hp,Option.some.injEq] at hs
        exact hs ▸ .finishBurst hp rfl
      | cons op rest => simp [Engine.step,hp] at hs
    | _ => simp [Engine.step,hp] at hs

end Engine

end SglangLite.Hybrid
