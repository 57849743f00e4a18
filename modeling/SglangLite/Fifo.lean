import Mathlib.Data.List.DropRight
import Mathlib.Data.List.Nodup
set_option autoImplicit false

namespace Fifo

universe u v

variable {κ : Type u} {α : Type v} {key : α → κ} {cap : Nat}

theorem rtake_append_rtake (l r : List α) : (l.rtake cap ++ r).rtake cap = (l ++ r).rtake cap := by
  rw [List.rtake_eq_reverse_take_reverse,List.rtake_eq_reverse_take_reverse,
    List.rtake_eq_reverse_take_reverse,List.reverse_append,List.reverse_append,List.reverse_reverse,
    List.take_append,List.take_append,List.take_take]
  congr 3
  omega

theorem map_rtake (l : List α) : (l.rtake cap).map key = (l.map key).rtake cap := by
  simp [List.rtake]

theorem length_rtake_le (cap : Nat) (l : List α) : (l.rtake cap).length ≤ cap := by
  rw [List.rtake,List.length_drop]
  omega

theorem rtake_sublist (l : List α) : (l.rtake cap).Sublist l := List.drop_sublist _ _

variable [DecidableEq κ]

/-- One more insert, under `k`, where `log` are the first inserts so far. The
`cap` latest of them are the keys that are there. An insert under a key that is
not there is a first insert, also when the key was there before. -/
def noteInsert (cap : Nat) (log : List κ) (k : κ) : List κ :=
  if k ∈ log.rtake cap then log else log ++ [k]

def firstInserts (cap : Nat) (ks : List κ) : List κ := ks.foldl (noteInsert cap) []

def latest (key : α → κ) (inserts : List α) (k : κ) : Option α :=
  inserts.reverse.find? fun x => key x = k

/-- An insert into a map that holds at most `cap` entries. An entry with the
same key is replaced where it stands. -/
def put (key : α → κ) (cap : Nat) (es : List α) (x : α) : List α :=
  if key x ∈ es.map key then es.map fun y => if key y = key x then x else y
  else (es ++ [x]).rtake cap

structure Holds (key : α → κ) (cap : Nat) (inserts es : List α) : Prop where
  keys : es.map key = (firstInserts cap (inserts.map key)).rtake cap
  nodup : (es.map key).Nodup
  latest : ∀ x ∈ es, latest key inserts (key x) = some x

variable {inserts es : List α} {x : α}

theorem firstInserts_concat (ks : List κ) (k : κ) :
    firstInserts cap (ks ++ [k]) = noteInsert cap (firstInserts cap ks) k := by
  simp [firstInserts]

theorem latest_concat (k : κ) :
    latest key (inserts ++ [x]) k = if key x = k then some x else latest key inserts k := by
  by_cases h : key x = k <;> simp [latest,h]

theorem mem_of_latest {k : κ} (h : latest key inserts k = some x) : x ∈ inserts :=
  List.mem_reverse.mp (List.mem_of_find?_eq_some h)

theorem holds_nil : Holds key cap [] [] := ⟨by simp [firstInserts],by simp,by simp⟩

theorem Holds.length_le (h : Holds key cap inserts es) : es.length ≤ cap := by
  have := length_rtake_le cap (firstInserts cap (inserts.map key))
  rwa [← h.keys,List.length_map] at this

theorem map_key_replace : (es.map fun y => if key y = key x then x else y).map key = es.map key := by
  rw [List.map_map]
  refine List.map_congr_left fun y _ => ?_
  by_cases hy : key y = key x <;> simp [hy]

theorem Holds.put (h : Holds key cap inserts es) : Holds key cap (inserts ++ [x]) (put key cap es x) := by
  have hlog : firstInserts cap ((inserts ++ [x]).map key) =
      if key x ∈ es.map key then firstInserts cap (inserts.map key)
      else firstInserts cap (inserts.map key) ++ [key x] := by
    rw [List.map_append,List.map_singleton,firstInserts_concat,noteInsert,← h.keys]
  unfold Fifo.put
  by_cases hx : key x ∈ es.map key
  · rw [if_pos hx] at hlog ⊢
    have hkeys : (es.map fun y => if key y = key x then x else y).map key = es.map key := map_key_replace
    refine ⟨by rw [hkeys,hlog,h.keys],by rw [hkeys]; exact h.nodup,fun z hz => ?_⟩
    obtain ⟨y,hy,rfl⟩ := List.mem_map.mp hz
    rw [latest_concat]
    by_cases hk : key y = key x
    · simp [hk]
    · simpa [hk,Ne.symm hk] using h.latest y hy
  · rw [if_neg hx] at hlog ⊢
    have hnodup : ((es ++ [x]).map key).Nodup := by
      rw [List.map_append]
      refine h.nodup.append (by simp) ?_
      simpa using hx
    refine ⟨?_,?_,fun z hz => ?_⟩
    · rw [map_rtake,List.map_append,h.keys,hlog]
      exact rtake_append_rtake _ _
    · rw [map_rtake]
      exact (rtake_sublist _).nodup hnodup
    · rw [latest_concat]
      rcases List.mem_append.mp ((rtake_sublist _).subset hz) with hz | hz
      · have hk : key x ≠ key z := fun hk => hx (List.mem_map.mpr ⟨z,hz,hk.symm⟩)
        rw [if_neg hk]
        exact h.latest z hz
      · simp [List.mem_singleton.mp hz]

end Fifo
