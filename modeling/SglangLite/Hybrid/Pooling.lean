import Mathlib.Data.List.GetD
import SglangLite.Hybrid.Clear

set_option autoImplicit false

namespace SglangLite.Hybrid.Compressor

variable {S X : Type} {ratio dim n : Nat} {fill : S} {v v' : Nat → List S} {buf : BufferRow S}

/-- A state buffer after `n` vectors: the vectors of the window that is not yet
full and, where windows overlap, those of the window before it. -/
structure Windows (ratio dim : Nat) (fill : S) (v : Nat → List S) (n : Nat) (buf : BufferRow S) : Prop where
  current : ∀ j < n%ratio, buf (offset ratio+j) = v (n/ratio*ratio+j)
  first : ratio = 4 → n/ratio = 0 → ∀ j < ratio, (buf j).take dim = List.replicate dim fill
  previous : ratio = 4 → n/ratio ≠ 0 → ∀ j < ratio, buf j = v ((n/ratio-1)*ratio+j)

def Unfilled (ratio dim : Nat) (fill : S) (buf : BufferRow S) : Prop :=
  ratio = 4 → ∀ j < ratio, (buf j).take dim = List.replicate dim fill

theorem cutoff_eq (n ratio : Nat) : n-n%ratio = n/ratio*ratio := by
  have := Nat.div_add_mod n ratio
  rw [Nat.mul_comm] at this
  omega

theorem div_of_full (hr : 0 < ratio) (h : (n+1)%ratio = 0) : (n+1)/ratio = n/ratio+1 := by
  have h1 := Nat.div_add_mod (n+1) ratio
  have h2 := Nat.div_add_mod n ratio
  have h3 := mod_of_full hr h
  rw [h,Nat.add_zero] at h1
  refine Nat.eq_of_mul_eq_mul_left hr ?_
  rw [h1,Nat.mul_add,Nat.mul_one]
  omega

theorem next_of_open (hr : 0 < ratio) (h : (n+1)%ratio ≠ 0) :
    (n+1)%ratio = n%ratio+1 ∧ (n+1)/ratio = n/ratio := by
  have hlt : n%ratio+1 < ratio := by
    refine Nat.lt_of_le_of_ne (Nat.mod_lt n hr) fun he => h ?_
    have := Nat.div_add_mod n ratio
    rw [← this,Nat.add_assoc,he,Nat.mul_add_mod,Nat.mod_self]
  have hn := Nat.div_add_mod n ratio
  rw [← hn,Nat.add_assoc]
  exact ⟨by rw [Nat.mul_add_mod,Nat.mod_eq_of_lt hlt,hn],
    by rw [Nat.mul_add_div hr,Nat.div_eq_of_lt hlt,Nat.add_zero,hn]⟩

theorem window_congr {i : Nat} (h : ∀ j < (i+1)*ratio, v j = v' j) :
    window ratio dim v fill i = window ratio dim v' fill i := by
  have hcur : ∀ j ∈ List.range ratio, v (i*ratio+j) = v' (i*ratio+j) := fun j hj =>
    h _ (by have := List.mem_range.mp hj; rw [Nat.succ_mul]; omega)
  by_cases h4 : ratio = 4
  · rw [window,window,if_pos h4,if_pos h4]
    refine congrArg₂ _ (List.map_congr_left fun j hj => ?_) (List.map_congr_left fun j hj => ?_)
    · have hle : (i-1)*ratio ≤ i*ratio := Nat.mul_le_mul_right _ (Nat.sub_le i 1)
      rw [h ((i-1)*ratio+j) (by have := List.mem_range.mp hj; rw [Nat.succ_mul]; omega)]
    · rw [hcur j hj]
  · rw [window,window,if_neg h4,if_neg h4]
    exact List.map_congr_left hcur

def filledBy (ratio : Nat) (v : Nat → List S) (n : Nat) (buf : BufferRow S) : BufferRow S :=
  let cutoff := n-n%ratio
  let buf₁ := if ratio = 4 ∧ ratio ≤ cutoff then assign 0 ratio (fun j => v (cutoff-ratio+j)) buf else buf
  if 0 < n%ratio then assign (offset ratio) (n%ratio) (fun j => v (cutoff+j)) buf₁ else buf₁

theorem windows_filledBy (h : Unfilled ratio dim fill buf) :
    Windows ratio dim fill v n (filledBy ratio v n buf) := by
  have hcut := cutoff_eq n ratio
  refine ⟨fun j hj => ?_,fun h4 h0 j hj => ?_,fun h4 h0 j hj => ?_⟩
  · simp only [filledBy,if_pos (Nat.lt_of_le_of_lt (Nat.zero_le j) hj),assign]
    rw [if_pos (by omega),Nat.add_sub_cancel_left,hcut]
  · have hz : n-n%ratio = 0 := by rw [hcut,h0,Nat.zero_mul]
    have hno : ¬ (ratio = 4 ∧ ratio ≤ n-n%ratio) := by omega
    have hout : ¬ (offset ratio ≤ j ∧ j < offset ratio+n%ratio) := by
      rw [offset,if_pos h4]
      omega
    simp only [filledBy,if_neg hno]
    split_ifs
    · rw [assign,if_neg hout]
      exact h h4 j hj
    · exact h h4 j hj
  · have hge : ratio ≤ n/ratio*ratio := Nat.le_mul_of_pos_left ratio (Nat.pos_of_ne_zero h0)
    have hout : ¬ (offset ratio ≤ j ∧ j < offset ratio+n%ratio) := by
      rw [offset,if_pos h4]
      omega
    have hset : assign 0 ratio (fun j => v (n-n%ratio-ratio+j)) buf j = v ((n/ratio-1)*ratio+j) := by
      rw [assign,if_pos (by omega),Nat.sub_zero,hcut,Nat.sub_one_mul]
    simp only [filledBy,if_pos (And.intro h4 (hcut ▸ hge))]
    split_ifs
    · rw [assign,if_neg hout,hset]
    · exact hset

def entering (ratio n : Nat) (a : List S) (buf : BufferRow S) : BufferRow S :=
  Function.update buf (offset ratio+n%ratio) a

def moving (ratio : Nat) (buf : BufferRow S) : BufferRow S :=
  if ratio = 4 then assign 0 ratio (fun j => buf (ratio+j)) buf else buf

section Entering

variable {a : List S} (hr : 0 < ratio) (h : Windows ratio dim fill v n buf) (ha : v n = a)

include h ha

theorem entering_current {j : Nat} (hj : j ≤ n%ratio) :
    entering ratio n a buf (offset ratio+j) = v (n/ratio*ratio+j) := by
  rcases Nat.lt_or_eq_of_le hj with hlt | rfl
  · rw [entering,Function.update_of_ne (by omega)]
    exact h.current j hlt
  · have := Nat.div_add_mod n ratio
    rw [entering,Function.update_self,Nat.mul_comm,this,ha]

omit h ha in
theorem entering_before {j : Nat} (h4 : ratio = 4) (hj : j < ratio) :
    entering ratio n a buf j = buf j := by
  refine Function.update_of_ne ?_ _ _
  rw [offset,if_pos h4]
  omega

include hr

theorem pooled_entering (hfull : (n+1)%ratio = 0) :
    pooled ratio dim (entering ratio n a buf) = window ratio dim v fill (n/ratio) := by
  have hlast := mod_of_full hr hfull
  have hcur : ∀ j ∈ List.range ratio, entering ratio n a buf (offset ratio+j) = v (n/ratio*ratio+j) :=
    fun j hj => entering_current h ha (by have := List.mem_range.mp hj; omega)
  by_cases h4 : ratio = 4
  · rw [pooled,window,if_pos h4,if_pos h4]
    refine congrArg₂ _ (List.map_congr_left fun j hj => ?_) (List.map_congr_left fun j hj => ?_)
    · have hj' := List.mem_range.mp hj
      rw [entering_before h4 hj']
      split_ifs with h0
      · exact h.first h4 h0 j hj'
      · rw [h.previous h4 h0 j hj']
    · have := hcur j hj
      rw [offset,if_pos h4] at this
      rw [this]
  · rw [pooled,window,if_neg h4,if_neg h4]
    refine List.map_congr_left fun j hj => ?_
    have := hcur j hj
    rwa [offset,if_neg h4,Nat.zero_add] at this

theorem windows_entering (hopen : (n+1)%ratio ≠ 0) :
    Windows ratio dim fill v (n+1) (entering ratio n a buf) := by
  obtain ⟨hmod,hdiv⟩ := next_of_open hr hopen
  refine ⟨fun j hj => ?_,fun h4 h0 j hj => ?_,fun h4 h0 j hj => ?_⟩
  · rw [hdiv]
    exact entering_current h ha (by omega)
  · rw [entering_before h4 hj]
    exact h.first h4 (hdiv ▸ h0) j hj
  · rw [entering_before h4 hj,hdiv]
    exact h.previous h4 (hdiv ▸ h0) j hj

theorem windows_moving (hfull : (n+1)%ratio = 0) :
    Windows ratio dim fill v (n+1) (moving ratio (entering ratio n a buf)) := by
  have hlast := mod_of_full hr hfull
  have hdiv := div_of_full hr hfull
  refine ⟨fun j hj => absurd hj (by omega),fun h4 h0 => absurd h0 (by rw [hdiv]; exact Nat.succ_ne_zero _),
    fun h4 _ j hj => ?_⟩
  have hcur := entering_current h ha (j := j) (by omega)
  rw [offset,if_pos h4] at hcur
  rw [moving,if_pos h4,assign,if_pos (by omega),Nat.sub_zero,hcur,hdiv,Nat.add_sub_cancel]

end Entering

section Rows

variable (w : Compressor X S) (c : Scalars S) (ratio dim : Nat)

def scored (xs : List X) (j : Nat) : List S := w.add (w.scoreAt xs j) (w.ape (j%ratio))

def compressed (xs : List X) (i : Nat) : List S :=
  w.post (i*ratio) (w.pool (window ratio dim (w.kvAt xs) c.zero i)
    (window ratio dim (w.scored ratio xs) c.negInf i))

structure Pools (xs : List X) (st : CompressorRow S) : Prop where
  kv : Windows ratio dim c.zero (w.kvAt xs) xs.length st.kv
  score : Windows ratio dim c.negInf (w.scored ratio xs) xs.length st.score

/-- The states that a compressor begins with, as far as they are ever read. -/
structure Unpooled (st : CompressorRow S) : Prop where
  kv : Unfilled ratio dim c.zero st.kv
  score : Unfilled ratio dim c.negInf st.score

end Rows

variable {w : Compressor X S} {c : Scalars S} {xs ys : List X} {st : CompressorRow S}

theorem kvAt_append {j : Nat} (hj : j < xs.length) (ys : List X) : w.kvAt (xs ++ ys) j = w.kvAt xs j := by
  rw [kvAt,kvAt,List.map_append,List.getD_append]
  rwa [List.length_map]

theorem scored_append {j : Nat} (hj : j < xs.length) (ys : List X) :
    w.scored ratio (xs ++ ys) j = w.scored ratio xs j := by
  rw [scored,scored,scoreAt,scoreAt,List.map_append,List.getD_append]
  rwa [List.length_map]

theorem kvAt_length (x : X) : w.kvAt (xs ++ [x]) xs.length = w.wkv x := by
  rw [kvAt,List.map_append,List.getD_append_right _ _ _ _ (Nat.le_of_eq (List.length_map _)),List.length_map,
    Nat.sub_self]
  rfl

theorem scored_length (x : X) :
    w.scored ratio (xs ++ [x]) xs.length = w.add (w.wgate x) (w.ape (xs.length%ratio)) := by
  rw [scored,scoreAt,List.map_append,List.getD_append_right _ _ _ _ (Nat.le_of_eq (List.length_map _)),
    List.length_map,Nat.sub_self]
  rfl

/-- A compressed row is settled when its window is full. -/
theorem compressed_append {i : Nat} (hi : (i+1)*ratio ≤ xs.length) :
    w.compressed c ratio dim (xs ++ ys) i = w.compressed c ratio dim xs i := by
  rw [compressed,compressed,window_congr fun j hj => kvAt_append (Nat.lt_of_lt_of_le hj hi) _,
    window_congr fun j hj => scored_append (Nat.lt_of_lt_of_le hj hi) _]

theorem prefillOut_eq (xs : List X) : w.prefillOut c ratio dim xs =
    if ratio ≤ xs.length then
      some ((List.range (xs.length/ratio)).map (w.compressed c ratio dim xs)) else none := rfl

theorem prefillState_kv (xs : List X) (st : CompressorRow S) :
    (w.prefillState ratio xs st).kv = filledBy ratio (w.kvAt xs) xs.length st.kv := by
  unfold prefillState filledBy
  simp only
  split_ifs <;> rfl

theorem prefillState_score (hr : 0 < ratio) (xs : List X) (st : CompressorRow S) :
    (w.prefillState ratio xs st).score = filledBy ratio (w.scored ratio xs) xs.length st.score := by
  have hcut := cutoff_eq xs.length ratio
  have hmod : ∀ i j : Nat, j < ratio → (i*ratio+j)%ratio = j := fun i j hj => by
    rw [Nat.add_comm,Nat.add_mul_mod_self_right,Nat.mod_eq_of_lt hj]
  have hassign : ∀ (lo n : Nat) (f g : Nat → List S) (row : BufferRow S), (∀ j < n, f j = g j) →
      assign lo n f row = assign lo n g row := by
    intro lo n f g row h
    funext p
    rw [assign,assign]
    split_ifs with hp
    · exact h _ (by omega)
    · rfl
  have hcur : ∀ row, assign (offset ratio) (xs.length%ratio)
      (fun j => w.add (w.scoreAt xs (xs.length-xs.length%ratio+j)) (w.ape j)) row =
      assign (offset ratio) (xs.length%ratio)
        (fun j => w.scored ratio xs (xs.length-xs.length%ratio+j)) row := fun row =>
    hassign _ _ _ _ _ fun j hj => by
      rw [scored,hcut,hmod _ _ (Nat.lt_trans hj (Nat.mod_lt _ hr))]
  have hprev : ∀ row, assign 0 ratio
      (fun j => w.add (w.scoreAt xs (xs.length-xs.length%ratio-ratio+j)) (w.ape j)) row =
      assign 0 ratio (fun j => w.scored ratio xs (xs.length-xs.length%ratio-ratio+j)) row :=
    fun row => hassign _ _ _ _ _ fun j hj => by
      rw [scored,hcut,← Nat.sub_one_mul,hmod _ _ hj]
  unfold prefillState filledBy
  simp only
  split_ifs <;> simp only [hcur,hprev]

theorem decodeState_kv (x : X) (st : CompressorRow S) : (w.decodeState ratio n x st).kv =
    if (n+1)%ratio = 0 then moving ratio (entering ratio n (w.wkv x) st.kv)
    else entering ratio n (w.wkv x) st.kv := by
  unfold decodeState moved moving entering entered
  split_ifs <;> rfl

theorem decodeState_score (x : X) (st : CompressorRow S) : (w.decodeState ratio n x st).score =
    if (n+1)%ratio = 0 then
      moving ratio (entering ratio n (w.add (w.wgate x) (w.ape (n%ratio))) st.score)
    else entering ratio n (w.add (w.wgate x) (w.ape (n%ratio))) st.score := by
  unfold decodeState moved moving entering entered
  split_ifs <;> rfl

theorem Windows.congr (h : Windows ratio dim fill v n buf) (hv : ∀ j < n, v' j = v j) :
    Windows ratio dim fill v' n buf := by
  have hn := Nat.div_add_mod n ratio
  rw [Nat.mul_comm] at hn
  refine ⟨fun j hj => ?_,h.first,fun h4 h0 j hj => ?_⟩
  · rw [h.current j hj,hv _ (by omega)]
  · have hge : ratio ≤ n/ratio*ratio := Nat.le_mul_of_pos_left ratio (Nat.pos_of_ne_zero h0)
    rw [h.previous h4 h0 j hj,hv _ (by rw [Nat.sub_one_mul]; omega)]

theorem pools_prefill (hr : 0 < ratio) (h : Unpooled c ratio dim st) :
    Pools w c ratio dim xs (w.prefillState ratio xs st) where
  kv := prefillState_kv (w := w) xs st ▸ windows_filledBy h.kv
  score := prefillState_score (w := w) hr xs st ▸ windows_filledBy h.score

/-- A decode step pools the window that a pass over the whole text would, and
keeps what the next step needs. -/
theorem pools_decode (hr : 0 < ratio) (h : Pools w c ratio dim xs st) (x : X) :
    Pools w c ratio dim (xs ++ [x]) (w.decodeState ratio xs.length x st) ∧
      w.decodeOut ratio dim xs.length x st = if (xs.length+1)%ratio = 0 then
        some [w.compressed c ratio dim (xs ++ [x]) (xs.length/ratio)] else none := by
  have hkv := h.kv.congr fun j hj => kvAt_append hj [x]
  have hscore := h.score.congr fun j hj => scored_append hj [x]
  have hlen : (xs ++ [x]).length = xs.length+1 := by rw [List.length_append,List.length_singleton]
  by_cases hfull : (xs.length+1)%ratio = 0
  · have hpos : (xs.length+1)-ratio = xs.length/ratio*ratio := by
      have := Nat.div_add_mod xs.length ratio
      have := mod_of_full hr hfull
      rw [Nat.mul_comm]
      omega
    refine ⟨⟨?_,?_⟩,?_⟩
    · rw [decodeState_kv,if_pos hfull,hlen]
      exact windows_moving hr hkv (kvAt_length x) hfull
    · rw [decodeState_score,if_pos hfull,hlen]
      exact windows_moving hr hscore (scored_length x) hfull
    · simp only [decodeOut,if_pos hfull,hpos,compressed]
      rw [← pooled_entering hr hkv (kvAt_length x) hfull,
        ← pooled_entering hr hscore (scored_length x) hfull]
      rfl
  · refine ⟨⟨?_,?_⟩,?_⟩
    · rw [decodeState_kv,if_neg hfull,hlen]
      exact windows_entering hr hkv (kvAt_length x) hfull
    · rw [decodeState_score,if_neg hfull,hlen]
      exact windows_entering hr hscore (scored_length x) hfull
    · simp only [decodeOut,if_neg hfull]

end SglangLite.Hybrid.Compressor
