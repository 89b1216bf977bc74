/-
  How long the two lists of `merkle_history_requirements` are.

  The epochs above 4 have skip pointers, so the number of hashes follows from the count of skip
  pointers; below, every path to a pin under 4 passes epoch 4, whose pointers are 3, 2 and 1.
  The full roots are never more than the hashes.
-/
import Foks.Lib.SkipCount
import Foks.Verify.SkipPath

namespace Foks.Verify

open Foks.Lib
open Foks.MerkleStore (epochPointers epochPointers_bounds backPointerSequence_eq)

/-- The number of hashes a client at epoch `pinned` asks for to reach `latest`. -/
def historyHashCount (latest pinned : Nat) : Nat :=
  if latest ≤ 4 then latest - 2
  else if pinned < 4 then skipPointerCount latest 4 + 2
  else skipPointerCount latest pinned - 1

theorem epochPointers_of_lt {s : Nat} (hs : 4 < s) : epochPointers s = skips s :=
  if_neg (by omega)

theorem mem_epochPointers_of_le {s t : Nat} (hs : s ≤ 4) :
    t ∈ epochPointers s ↔ 0 < t ∧ t < s := by
  rw [epochPointers, if_pos hs]
  simp only [List.mem_map, List.mem_reverse, List.mem_range]
  constructor
  · rintro ⟨i, hi, rfl⟩
    omega
  · intro ht
    exact ⟨t - 1, by omega, by omega⟩

/-- Pointers of epochs above 4 do not pass 4. -/
theorem four_le_of_mem_epochPointers {s t : Nat} (hs : 4 < s) (ht : t ∈ epochPointers s) :
    4 ≤ t := by
  rw [epochPointers_of_lt hs, mem_skips (by omega)] at ht
  obtain ⟨i, ⟨q, hq⟩, hlt, rfl⟩ := ht
  have hq2 : 2 ≤ q := by
    by_contra h
    have : 2 ^ i * q ≤ 2 ^ i * 1 := Nat.mul_le_mul_left _ (by omega)
    omega
  have htwice : 2 ^ i * 2 ≤ 2 ^ i * q := Nat.mul_le_mul_left _ hq2
  match i with
  | 0 => omega
  | 1 => omega
  | i + 2 =>
    have : 2 ^ 2 ≤ 2 ^ (i + 2) := Nat.pow_le_pow_right (by omega) (by omega)
    omega

theorem epochPointers_descends {stop : Nat} (hstop : 0 < stop) :
    Descends id epochPointers stop where
  lower := fun _ _ ht => (epochPointers_bounds ht).2
  reach := by
    intro s hs
    have hs : stop < s := hs
    exact ⟨s - 1, MerkleStore.pred_mem_epochPointers (by omega), show stop ≤ s - 1 by omega⟩

variable {path : List Nat}

/-- A path to a pin below 4 is the path to 4, and 4. -/
theorem descent_through_four {s stop : Nat} (hstop : 0 < stop) (hlt : stop < 4) (hs : 4 ≤ s)
    (h : Descent id epochPointers 4 s path) : Descent id epochPointers stop s (path ++ [4]) := by
  induction h with
  | @done s hle =>
    obtain rfl : s = 4 := le_antisymm hle hs
    refine .step hlt (.done ?_)
    interval_cases stop <;> decide
  | @step s path hgt rest ih =>
    have hsame : lastAbove id stop s (epochPointers s) = lastAbove id 4 s (epochPointers s) := by
      refine List.foldl_ext _ _ _ fun kept t ht => ?_
      have : 4 ≤ t := four_le_of_mem_epochPointers hgt ht
      rw [if_pos (show id stop ≤ id t by simp only [id]; omega),
        if_pos (show id 4 ≤ id t from this)]
    refine .step (show id stop < id s by simp only [id]; omega) ?_
    rw [hsame]
    exact ih ((epochPointers_descends (by omega)).jump hgt).2.1

/-- The end of a path is among the pointers. -/
theorem stop_mem_pointerSet {s stop : Nat} (hstop : 0 < stop) (hlt : stop < s)
    (h : Descent id epochPointers stop s path) : stop ∈ pointerSet epochPointers path := by
  have hchain := (h.linked (epochPointers_descends hstop) Function.injective_id hlt.le).1
  cases h with
  | done hle => exact absurd hlt (Nat.not_lt.mpr hle)
  | @step _ path _ _ =>
    refine mem_pointerSet.mpr ⟨(s :: path).getLast (by simp), List.getLast_mem _, ?_⟩
    exact (List.isChain_append.mp hchain).2.2 _ (List.getLast?_eq_some_getLast _) stop rfl

theorem card_pointers {latest pinned : Nat} (hpos : 0 < pinned) (hlt : pinned < latest)
    (h : Descent id epochPointers pinned latest path) :
    (pointerSet epochPointers path).card = historyHashCount latest pinned + 1 := by
  have hd := epochPointers_descends hpos
  have hbounds : ∀ t ∈ pointerSet epochPointers path, 0 < t ∧ t < latest := by
    intro t ht
    obtain ⟨s, hs, ht⟩ := mem_pointerSet.mp ht
    have hle : s ≤ latest := (h.mem_bounds hd hs).2
    have := epochPointers_bounds ht
    omega
  unfold historyHashCount
  split
  · rename_i hsmall
    have hall : pointerSet epochPointers path = Finset.Ico 1 latest := by
      ext t
      rw [Finset.mem_Ico]
      refine ⟨hbounds t, fun ht => mem_pointerSet.mpr ⟨latest, ?_, ?_⟩⟩
      · cases h with
        | done hle => exact absurd hlt (Nat.not_lt.mpr hle)
        | step => exact List.mem_cons_self ..
      · exact (mem_epochPointers_of_le hsmall).mpr ht
    rw [hall, Nat.card_Ico]
    omega
  · rename_i hlarge
    split
    · rename_i hbelow
      have hfour := @epochPointers_descends 4 (by omega)
      obtain ⟨upper, hupper⟩ := hfour.exists_descent latest
      have hpath := h.unique (descent_through_four hpos hbelow (by omega) hupper)
      have hsplit : pointerSet epochPointers path =
          pointerSet epochPointers upper ∪ Finset.Ico 1 4 := by
        ext t
        rw [hpath, Finset.mem_union, mem_pointerSet, mem_pointerSet, Finset.mem_Ico]
        simp only [List.mem_append, List.mem_singleton, or_and_right, exists_or, exists_eq_left]
        rw [mem_epochPointers_of_le (le_refl 4)]
        rfl
      have hdisjoint : Disjoint (pointerSet epochPointers upper) (Finset.Ico 1 4) := by
        rw [Finset.disjoint_left]
        intro t ht hsmall
        obtain ⟨s, hs, ht⟩ := mem_pointerSet.mp ht
        have := four_le_of_mem_epochPointers (hupper.mem_bounds hfour hs).1 ht
        have := (Finset.mem_Ico.mp hsmall).2
        omega
      rw [hsplit, Finset.card_union_of_disjoint hdisjoint, Nat.card_Ico,
        card_pointerSet_eq hfour (fun s hs => epochPointers_of_lt hs) (by omega) (by omega) hupper]
    · rename_i habove
      have hone := Finset.card_pos.mpr ⟨_, stop_mem_pointerSet hpos hlt h⟩
      rw [card_pointerSet_eq hd (fun s hs => epochPointers_of_lt (by omega)) hpos hlt h] at hone ⊢
      omega

/-- Distinct epochs below a bound are not more than the bound. -/
theorem length_le_of_nodup {epochs : List UInt64} {n : Nat} (hnodup : epochs.Nodup)
    (hlt : ∀ e ∈ epochs, e.toNat < n) : epochs.length ≤ n := by
  have hsub : epochs.map UInt64.toNat ⊆ List.range n := by
    intro t ht
    obtain ⟨e, he, rfl⟩ := List.mem_map.mp ht
    exact List.mem_range.mpr (hlt e he)
  have hle := (List.subperm_of_subset (hnodup.map fun _ _ => UInt64.toNat_inj.mp) hsub).length_le
  rwa [List.length_map, List.length_range] at hle

namespace SkipPath

variable {latest pinned : UInt64} {rest : List UInt64}

section

variable (h : SkipPath latest pinned rest)
include h

theorem descent_nat :
    Descent id epochPointers pinned.toNat latest.toNat ((latest :: rest).map UInt64.toNat) :=
  h.descent.map_height backPointerSequence_eq

theorem length_hashEpochs :
    (hashEpochs latest pinned rest).length = historyHashCount latest.toNat pinned.toNat := by
  have hinj : Function.Injective UInt64.toNat := fun _ _ => UInt64.toNat_inj.mp
  have hset : ((hashEpochs latest pinned rest).map UInt64.toNat).toFinset =
      (pointerSet epochPointers ((latest :: rest).map UInt64.toNat)).erase pinned.toNat := by
    ext t
    rw [List.mem_toFinset, Finset.mem_erase, mem_pointerSet]
    simp only [List.mem_map, mem_hashEpochs, merkleBackpointerSequence_eq,
      MerkleStore.mem_backPointerSequence]
    constructor
    · rintro ⟨e, ⟨hne, s, hs, he⟩, rfl⟩
      exact ⟨fun heq => hne (hinj heq), _, ⟨s, hs, rfl⟩, he⟩
    · rintro ⟨hne, _, ⟨s, hs, rfl⟩, ht⟩
      rw [← backPointerSequence_eq] at ht
      obtain ⟨e, he, rfl⟩ := List.mem_map.mp ht
      exact ⟨e, ⟨fun heq => hne (by rw [heq]), s, hs, MerkleStore.mem_backPointerSequence.mp he⟩,
        rfl⟩
  have hnodup : ((hashEpochs latest pinned rest).map UInt64.toNat).Nodup :=
    hashEpochs_nodup.map hinj
  rw [← List.length_map UInt64.toNat, ← List.toFinset_card_of_nodup hnodup, hset,
    Finset.card_erase_of_mem (stop_mem_pointerSet h.pinned_pos h.lt h.descent_nat),
    card_pointers h.pinned_pos h.lt h.descent_nat, Nat.add_sub_cancel]

/-- Every full root is a pointer of the epoch before it on the path. -/
theorem length_le_hashEpochs :
    rest.length ≤ (hashEpochs latest pinned rest).length := by
  have hchain : (latest :: rest).IsChain (fun a b => b ∈ merkleBackpointerSequence a) :=
    (List.isChain_append.mp h.linked).1
  have hsub : rest ⊆ hashEpochs latest pinned rest := by
    intro e he
    have hlow := (h.bounds (List.mem_cons_of_mem _ he)).1
    refine mem_hashEpochs.mpr ⟨fun heq => by rw [heq] at hlow; omega, ?_⟩
    clear h hlow
    induction rest generalizing latest with
    | nil => cases he
    | cons t rest ih =>
      rw [List.isChain_cons_cons] at hchain
      rcases List.mem_cons.mp he with rfl | he
      · exact ⟨latest, List.mem_cons_self .., hchain.1⟩
      · obtain ⟨s, hs, hes⟩ := ih hchain.2 he
        exact ⟨s, List.mem_cons_of_mem _ hs, hes⟩
  exact (List.subperm_of_subset (List.nodup_cons.mp h.nodup).2 hsub).length_le

theorem length_hashEpochs_le :
    (hashEpochs latest pinned rest).length ≤ latest.toNat := by
  refine length_le_of_nodup hashEpochs_nodup fun e he => ?_
  obtain ⟨-, s, hs, hes⟩ := mem_hashEpochs.mp he
  exact (h.pointer_bounds hs hes).2

end

end SkipPath

end Foks.Verify
