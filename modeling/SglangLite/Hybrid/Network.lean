import SglangLite.Hybrid.Cached

set_option autoImplicit false

namespace SglangLite.Hybrid

open Causal

variable {X S Q O K : Type} {args : ModelArgs} {c : Scalars S}

def FreshRows (args : ModelArgs) (c : Scalars S) : List (Block X S Q O K) → List (LayerRow S) → Prop :=
  List.Forall₂ (Block.Fresh args c)

theorem fresh_row (b : Block X S Q O K) (slot : Nat) :
    b.Fresh args c ((freshAttention c args b.ratio).row slot) := by
  have hun : ∀ dim : Nat, Compressor.Unpooled c b.ratio dim
      ((freshCompressor c args b.ratio dim).row slot) := fun dim => by
    have hfull : ∀ v : S, Compressor.Unfilled b.ratio dim v
        ((Buffer.full args.maxBatchSize (coff b.ratio*b.ratio) (coff b.ratio*dim) v).row slot) := by
      intro v h4 j hj
      have hcoff : coff b.ratio = 2 := if_pos h4
      simp only [Buffer.row,Buffer.full,hcoff]
      rw [if_pos (by omega : j < 2*b.ratio),List.take_replicate,Nat.min_eq_left (by omega)]
    exact ⟨hfull _,hfull _⟩
  refine ⟨fun h0 => ?_,fun h0 => ?_,fun h4 => ?_,fun h4 => ?_⟩
  · simp [AttentionState.row,freshAttention,h0]
  · simp only [AttentionState.row,freshAttention,if_neg h0,Option.map_some]
    exact ⟨_,rfl,hun _⟩
  · simp [AttentionState.row,freshAttention,h4]
  · simp only [AttentionState.row,freshAttention,if_pos h4,Option.map_some]
    exact ⟨_,_,rfl,hun _⟩

theorem freshRows_slot (net : List (Block X S Q O K)) (slot : Nat) :
    FreshRows args c net (slotRows slot (freshModel c args (net.map Block.ratio))) := by
  induction net with
  | nil => exact .nil
  | cons b net ih => exact .cons (fresh_row b slot) ih

variable [LinearOrder K]

def layers (args : ModelArgs) (net : List (Block X S Q O K)) : List (Layer X S) :=
  net.map (Block.layer args)

def netValue (args : ModelArgs) (c : Scalars S) : List (Block X S Q O K) → List X → X → X
  | [] => fun _ x => x
  | b :: net => after (netValue args c net) (b.value args c)

/-- `Transformer.forward` on one row, as a pass with its caches. -/
def netPass (args : ModelArgs) (c : Scalars S) (net : List (Block X S Q O K)) :
    Pass X X (List (LayerRow S)) := fun start xs rows =>
  let r := forwardRow c args (layers args net) start xs rows
  (r.1,r.2.1)

theorem net_computes (hwin : 1 < args.windowSize) (net : List (Block X S Q O K)) :
    ∃ Holds, Computes (netPass args c net) (netValue args c net) (FreshRows args c net) Holds := by
  induction net with
  | nil =>
    have hstay : ∀ n xs s, netPass args c ([] : List (Block X S Q O K)) n xs s = ([],xs) := by
      intro n xs s
      cases s <;> rfl
    exact ⟨_,(Computes.stay hstay).fresh fun _ _ => trivial⟩
  | cons b net ih =>
    obtain ⟨Holds,ih⟩ := ih
    have hboth := ((b.computes hwin).both ih).encode (q := netPass args c (b :: net))
      (fun s => s.1 :: s.2) fun _ _ _ => rfl
    refine ⟨_,hboth.fresh fun rows hrows => ?_⟩
    obtain ⟨row,rest,hrow,hrest,rfl⟩ := List.forall₂_cons_left_iff.mp hrows
    exact ⟨(row,rest),rfl,hrow,hrest⟩

theorem decodeRow_eq (net : List (Block X S Q O K)) (start : Nat) (ys : List X) (rows : List (LayerRow S)) :
    (decodeRow c args (layers args net) start ys rows).map Prod.fst =
      steps (netPass args c net) start ys rows := by
  induction ys generalizing start rows with
  | nil => rfl
  | cons y ys ih =>
    rw [decodeRow,List.map_cons,ih]
    rfl

theorem sum_filter_isSome (rows : List (Option (List Bool))) :
    ((rows.filter Option.isSome).map fun r => (r.getD []).length).sum =
      (((rows.filter Option.isSome).filter Option.isSome).map fun r => (r.getD []).length).sum := by
  rw [List.filter_filter]
  simp

def copying : Compressor Nat Bool where
  wkv x := [x%2 = 0,true]
  wgate x := [x%3 = 0,true]
  ape _ := []
  add s _ := s
  pool kv score := (kv ++ score).flatten.take 1
  post _ r := r

def copyBlock (ratio : Nat) : Block Nat Bool Unit Nat Nat where
  ratio := ratio
  indexTopk := 1
  comp := copying
  index := copying
  wkv _ x := [x%2 = 1]
  query _ _ := ()
  score _ x r := x+r.length
  sparseAttn _ rows := ((rows.filter Option.isSome).map fun r => (r.getD []).length).sum
  masked _ rows := sum_filter_isSome rows
  rest _ x o := x+o

def copyArgs : ModelArgs := ⟨1,16,2,1,1,Nat.one_pos⟩

end SglangLite.Hybrid
