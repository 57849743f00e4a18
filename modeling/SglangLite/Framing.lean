import Mathlib.Tactic
set_option autoImplicit false

namespace Framing

universe u v w

variable {α : Type u} {σ : Type v} {ρ ε : Type w}

def received : List (Except ε (List α)) → List α × Option ε
  | [] => ([],none)
  | .error e :: _ => ([],some e)
  | .ok chunk :: chunks => (chunk ++ (received chunks).1,(received chunks).2)

@[simp] theorem received_ok (chunks : List (List α)) :
    received (chunks.map (Except.ok : _ → Except ε _)) = (chunks.flatten,none) := by
  induction chunks with
  | nil => rfl
  | cons c cs ih => rw [List.map_cons,received,ih,List.flatten_cons]

variable [DecidableEq α] {d : α}

/-- The frames that end with the delimiter, and what stands after the last
of them. -/
def frames (d : α) : List α → List (List α) × List α
  | [] => ([],[])
  | x :: xs =>
      if x = d then ([] :: (frames d xs).1,(frames d xs).2)
      else
        match (frames d xs).1 with
        | [] => ([],x :: (frames d xs).2)
        | l :: ls => ((x :: l) :: ls,(frames d xs).2)

def cut (d : α) (buf : List α) : Option (List α × List α) :=
  (buf.idxOf? d).map fun pos => (buf.take pos,buf.drop (pos+1))

theorem cut_nil : cut d ([] : List α) = none := rfl

theorem cut_cons (x : α) (xs : List α) : cut d (x :: xs) =
    if x = d then some ([],xs) else (cut d xs).map fun c => (x :: c.1,c.2) := by
  rw [cut,cut,List.idxOf?_cons]
  by_cases hx : x = d
  · rw [if_pos hx,if_pos (by simpa using hx)]
    rfl
  · rw [if_neg hx,if_neg (by simpa using hx)]
    cases List.idxOf? d xs with
    | none => rfl
    | some pos => rfl

theorem frames_cut (buf : List α) : frames d buf = match cut d buf with
    | none => ([],buf)
    | some (l,rest) => (l :: (frames d rest).1,(frames d rest).2) := by
  induction buf with
  | nil => rfl
  | cons x xs ih =>
    rw [frames,cut_cons]
    split_ifs with hx
    · rfl
    · rw [ih]
      cases cut d xs with
      | none => rfl
      | some c => rfl

theorem cut_length {buf l rest : List α} (h : cut d buf = some (l,rest)) :
    rest.length < buf.length := by
  induction buf generalizing l rest with
  | nil => simp [cut_nil] at h
  | cons x xs ih =>
    rw [cut_cons] at h
    split_ifs at h with hx
    · cases h
      simp
    · obtain ⟨⟨l',rest'⟩,hc,he⟩ := Option.map_eq_some_iff.mp h
      cases he
      exact Nat.lt_succ_of_lt (ih hc)

theorem cut_append {buf more l rest : List α} (h : cut d buf = some (l,rest)) :
    cut d (buf++more) = some (l,rest++more) := by
  induction buf generalizing l rest with
  | nil => simp [cut_nil] at h
  | cons x xs ih =>
    rw [cut_cons] at h
    rw [List.cons_append,cut_cons]
    split_ifs at h ⊢ with hx
    · cases h
      rfl
    · obtain ⟨⟨l',rest'⟩,hc,he⟩ := Option.map_eq_some_iff.mp h
      cases he
      rw [ih hc]
      rfl

/-- What stands after the last delimiter is the beginning of what comes
next. -/
theorem frames_append (xs ys : List α) : frames d (xs++ys) =
    ((frames d xs).1 ++ (frames d ((frames d xs).2++ys)).1,(frames d ((frames d xs).2++ys)).2) := by
  induction h : xs.length using Nat.strong_induction_on generalizing xs with
  | _ n ih =>
    rw [frames_cut xs]
    cases hc : cut d xs with
    | none => simp only [List.nil_append]
    | some c =>
      obtain ⟨l,rest⟩ := c
      have hlt := cut_length hc
      rw [frames_cut (xs++ys),cut_append hc]
      simp only
      rw [ih _ (h ▸ hlt) rest rfl]
      rfl

theorem cut_rest (xs : List α) : cut d (frames d xs).2 = none := by
  induction h : xs.length using Nat.strong_induction_on generalizing xs with
  | _ n ih =>
    rw [frames_cut]
    cases hc : cut d xs with
    | none => exact hc
    | some c => exact ih _ (h ▸ cut_length hc) c.2 rfl

/-- Take the complete frames out of a buffer; `step` handles one frame and may
end the reading. -/
def drain (d : α) (step : σ → List α → Except ρ σ) (s : σ) (buf : List α) :
    Except ρ (σ × List α) :=
  match _h : cut d buf with
  | none => .ok (s,buf)
  | some (l,rest) =>
      match step s l with
      | .error r => .error r
      | .ok s' => drain d step s' rest
termination_by buf.length
decreasing_by exact cut_length ‹_›

/-- Read a stream chunk by chunk; a chunk that fails ends the reading. -/
def readChunks (d : α) (step : σ → List α → Except ρ σ) (fail : σ → ε → ρ) :
    σ → List α → List (Except ε (List α)) → Except ρ σ
  | s, _, [] => .ok s
  | s, _, .error e :: _ => .error (fail s e)
  | s, buf, .ok chunk :: chunks =>
      match drain d step s (buf++chunk) with
      | .error r => .error r
      | .ok (s',buf') => readChunks d step fail s' buf' chunks

theorem drain_eq (step : σ → List α → Except ρ σ) (s : σ) (buf : List α) :
    drain d step s buf =
      ((frames d buf).1.foldlM step s).map fun s' => (s',(frames d buf).2) := by
  induction h : buf.length using Nat.strong_induction_on generalizing buf s with
  | _ n ih =>
    rw [drain,frames_cut]
    split
    · next hc =>
      rw [hc]
      rfl
    · next l rest hc =>
      rw [hc]
      simp only [List.foldlM_cons]
      cases hs : step s l with
      | error r => rfl
      | ok s' => exact ih _ (h ▸ cut_length hc) s' rest rfl

def conclude (fail : σ → ε → ρ) (fault : Option ε) (s : σ) : Except ρ σ :=
  match fault with
  | none => .ok s
  | some e => .error (fail s e)

/-- A reading is that of the frames of all bytes received: where the chunks
were cut does not matter. -/
theorem readChunks_eq (step : σ → List α → Except ρ σ) (fail : σ → ε → ρ) (s : σ) (buf : List α)
    (chunks : List (Except ε (List α))) (hbuf : cut d buf = none) :
    readChunks d step fail s buf chunks =
      ((frames d (buf ++ (received chunks).1)).1.foldlM step s).bind
        (conclude fail (received chunks).2) := by
  induction chunks generalizing s buf with
  | nil =>
    rw [readChunks,received,List.append_nil,frames_cut,hbuf]
    rfl
  | cons c cs ih =>
    cases c with
    | error e =>
      rw [readChunks,received,List.append_nil,frames_cut,hbuf]
      rfl
    | ok chunk =>
      rw [readChunks,received,drain_eq,← List.append_assoc,frames_append (buf++chunk),
        List.foldlM_append]
      cases hf : (frames d (buf++chunk)).1.foldlM step s with
      | error r => rfl
      | ok s' => exact ih s' _ (cut_rest _)

theorem frames_spec (xs : List α) :
    xs = (frames d xs).1.flatMap (· ++ [d]) ++ (frames d xs).2 ∧
      (∀ l ∈ (frames d xs).1, d ∉ l) ∧ d ∉ (frames d xs).2 := by
  induction xs with
  | nil => simp [frames]
  | cons x xs ih =>
    obtain ⟨hxs,hls,hrest⟩ := ih
    rw [frames]
    split_ifs with hx
    · refine ⟨?_,?_,hrest⟩
      · rw [List.flatMap_cons,hx,List.nil_append,List.singleton_append,List.cons_append,← hxs]
      · rintro l hl
        rcases List.mem_cons.mp hl with rfl | hl
        · exact List.not_mem_nil
        · exact hls l hl
    · have hd : d ≠ x := fun h => hx h.symm
      cases hf : (frames d xs).1 with
      | nil =>
        rw [hf] at hxs
        refine ⟨?_,by simp,?_⟩
        · simpa using hxs
        · simp only [List.mem_cons,not_or]
          exact ⟨hd,hrest⟩
      | cons l ls =>
        rw [hf] at hxs hls
        refine ⟨?_,?_,hrest⟩
        · rw [List.flatMap_cons] at hxs ⊢
          rw [List.cons_append,List.cons_append,List.cons_append,← hxs]
        · intro l' hl'
          rcases List.mem_cons.mp hl' with rfl | hl'
          · simp only [List.mem_cons,not_or]
            exact ⟨hd,hls l List.mem_cons_self⟩
          · exact hls l' (List.mem_cons_of_mem l hl')

end Framing
