/-
  Back pointers and skip paths of the store (`foks-merkle-store`, `history.rs`).

  The root of an epoch commits to the hashes of earlier roots: the one before it and those a
  power of two back, up to the lowest set bit of the epoch. `collectRoots` walks these pointers
  from one epoch down to another and lists the hashes a reader needs beside the walk.

  The walk has no bound of its own in the source. The model gives it as many turns as the first
  epoch has numbers below it and returns `none` when they do not do.
-/
import Foks.Lib.SkipPointers
import Foks.Lib.SortedMap
import Foks.Lib.Descent
import Foks.Merkle.Node
import Foks.Proto.MerkleRoot

namespace Foks.MerkleStore

open Foks.Lib Foks.Snowpack Foks.Crypto

abbrev EpochSet := Std.ExtTreeSet UInt64 compare

/-- The `while epoch > distance` loop. The distance doubles each turn and a `u64` has 64 bits. -/
def backPointerLoop (epoch : UInt64) : Nat → UInt64 → List UInt64
  | 0, _ => []
  | turns + 1, distance =>
    if epoch > distance then
      (epoch - distance) ::
        (if epoch &&& distance ≠ 0 then [] else backPointerLoop epoch turns (distance <<< 1))
    else []

def backPointerSequence (epoch : UInt64) : List UInt64 :=
  if epoch = 0 ∨ epoch = 1 then []
  else if epoch = 2 then [1]
  else if epoch = 3 then [2, 1]
  else if epoch = 4 then [3, 2, 1]
  else backPointerLoop epoch 64 1

/-- The list of pointers as a value: null when there is none. -/
def backPointersValue (pointers : List (UInt64 × Hash)) : Value :=
  if pointers.isEmpty then .null
  else .array (pointers.map fun p => .array [.unsigned p.1, .binary p.2.bytes])

/-- The `for current in back_pointer_sequence(start)` loop: the last pointer that is not below
    `stop`, and the siblings with the pointers that are not roots of the path. -/
def visitPointers (stop : UInt64) (roots : EpochSet) :
    List UInt64 → UInt64 → EpochSet → UInt64 × EpochSet
  | [], start, siblings => (start, siblings)
  | current :: rest, start, siblings =>
    visitPointers stop roots rest (if current ≥ stop then current else start)
      (if roots.contains current then siblings else siblings.insert current)

/-- The `while start > end` loop; `none` when it is not done after `turns` turns. -/
def collectLoop (stop : UInt64) :
    Nat → UInt64 → List UInt64 → EpochSet → EpochSet → Option (List UInt64 × EpochSet)
  | 0, start, path, _, siblings => if start > stop then none else some (path, siblings)
  | turns + 1, start, path, roots, siblings =>
    if start > stop then
      let roots := roots.insert start
      let (next, siblings) := visitPointers stop roots (backPointerSequence start) start siblings
      collectLoop stop turns next (path ++ [start]) roots siblings
    else some (path, siblings)

/-- The skip path and the root hashes needed alongside it. -/
def collectRoots (start stop : UInt64) : Option (List UInt64 × List UInt64) :=
  (collectLoop stop start.toNat start [] ∅ ∅).map fun (path, siblings) =>
    (path, siblings.toList.reverse)

/-! ## The pointers of an epoch -/

/-- The pointers of epoch `n`: up to 4 every earlier epoch, from 5 on the skip pointers. -/
def epochPointers (n : Nat) : List Nat :=
  if n ≤ 4 then (List.range (n - 1)).reverse.map (· + 1) else skips n

theorem epochPointers_bounds {n t : Nat} (ht : t ∈ epochPointers n) : 0 < t ∧ t < n := by
  unfold epochPointers at ht
  split at ht
  · simp only [List.mem_map, List.mem_reverse, List.mem_range] at ht
    omega
  · exact ⟨skips_pos (by omega) ht, skips_lt (by omega) ht⟩

theorem pred_mem_epochPointers {n : Nat} (hn : 1 < n) : n - 1 ∈ epochPointers n := by
  unfold epochPointers
  split
  · simp only [List.mem_map, List.mem_reverse, List.mem_range]
    exact ⟨n - 2, by omega, by omega⟩
  · exact pred_mem_skips hn

theorem epochPointers_length_lt {n : Nat} (hn : n < 65536) : (epochPointers n).length < 16 := by
  unfold epochPointers
  split
  · simp only [List.length_map, List.length_reverse, List.length_range]
    omega
  · rw [skips, List.length_map, List.length_range]
    exact skipCount_lt (by omega) (by omega)

/-- The loop from distance `2 ^ k` on lists the pointers from the `k`th on. -/
theorem backPointerLoop_eq (epoch : UInt64) (hpos : 0 < epoch.toNat) (turns k : Nat)
    (distance : UInt64) (hturns : k + turns = 64) (hdvd : 2 ^ k ∣ epoch.toNat)
    (hd : 0 < turns → distance.toNat = 2 ^ k) :
    (backPointerLoop epoch turns distance).map UInt64.toNat =
      (List.range' k (skipCount epoch.toNat - k)).map (fun i => epoch.toNat - 2 ^ i) := by
  have hcount := skipCount_lt hpos epoch.toNat_lt
  induction turns generalizing k distance with
  | zero =>
    have hzero : skipCount epoch.toNat - k = 0 := by omega
    rw [hzero]
    rfl
  | succ turns ih =>
    have hd := hd (by omega)
    have hiff := @lt_skipCount_iff epoch.toNat k hpos
    have hgt : epoch > distance ↔ k < skipCount epoch.toNat := by
      rw [gt_iff_lt, UInt64.lt_iff_toNat_lt, hd, hiff]
      exact ⟨fun h => ⟨hdvd, h⟩, fun h => h.2⟩
    rw [backPointerLoop]
    by_cases hk : k < skipCount epoch.toNat
    · rw [if_pos (hgt.mpr hk)]
      have hsplit : skipCount epoch.toNat - k = (skipCount epoch.toNat - (k + 1)) + 1 := by omega
      have hhead : (epoch - distance).toNat = epoch.toNat - 2 ^ k := by
        rw [UInt64.toNat_sub_of_le _ _ (UInt64.le_iff_toNat_le.mpr (by omega)), hd]
      have hbit : epoch &&& distance ≠ 0 ↔ k = lowBit epoch.toNat := by
        rw [← testBit_of_pow_dvd hpos hdvd, ne_eq, ← UInt64.toNat_inj, UInt64.toNat_and, hd,
          Nat.and_two_pow]
        cases Nat.testBit epoch.toNat k <;> simp
      rw [hsplit, List.range'_succ, List.map_cons, List.map_cons, hhead]
      congr 1
      by_cases hlow : k = lowBit epoch.toNat
      · -- the lowest set bit ends the loop, and it is the last pointer
        have hlast : skipCount epoch.toNat - (k + 1) = 0 := by
          unfold skipCount
          split <;> omega
        rw [if_pos (hbit.mpr hlow), hlast]
        rfl
      · rw [if_neg (by rwa [hbit])]
        have hnext : 2 ^ (k + 1) ∣ epoch.toNat := by
          rw [pow_dvd_iff hpos] at hdvd ⊢
          omega
        refine ih (k + 1) (distance <<< 1) (by omega) hnext (fun hpos => ?_)
        have hlt : 2 ^ (k + 1) < 2 ^ 64 := Nat.pow_lt_pow_right (by omega) (by omega)
        rw [UInt64.toNat_shiftLeft, hd]
        simp only [UInt64.reduceToNat, Nat.one_mod, Nat.shiftLeft_eq, Nat.pow_one]
        rw [← Nat.pow_succ, Nat.mod_eq_of_lt hlt]
    · rw [if_neg (by rwa [hgt])]
      have hzero : skipCount epoch.toNat - k = 0 := by omega
      rw [hzero]
      rfl

theorem backPointerSequence_eq (epoch : UInt64) :
    (backPointerSequence epoch).map UInt64.toNat = epochPointers epoch.toNat := by
  have heq (n : UInt64) : epoch = n ↔ epoch.toNat = n.toNat := UInt64.toNat_inj.symm
  unfold backPointerSequence epochPointers
  simp only [heq, UInt64.reduceToNat]
  by_cases hsmall : epoch.toNat ≤ 4
  · rw [if_pos hsmall]
    generalize epoch.toNat = n at hsmall ⊢
    interval_cases n <;> rfl
  · rw [if_neg hsmall, if_neg (by omega), if_neg (by omega), if_neg (by omega), if_neg (by omega),
      backPointerLoop_eq epoch (by omega) 64 0 1 rfl (by simp) (fun _ => rfl), skips,
      List.range_eq_range', Nat.sub_zero]

theorem mem_backPointerSequence {epoch t : UInt64} :
    t ∈ backPointerSequence epoch ↔ t.toNat ∈ epochPointers epoch.toNat := by
  rw [← backPointerSequence_eq]
  exact (List.mem_map_of_injective (fun _ _ => UInt64.toNat_inj.mp)).symm

/-- Above a positive epoch the pointers always lead down to it. -/
theorem descends {stop : UInt64} (hstop : 0 < stop.toNat) :
    Descends UInt64.toNat backPointerSequence stop where
  lower := fun s t ht => (epochPointers_bounds (mem_backPointerSequence.mp ht)).2
  reach := by
    intro s hs
    have hpred : (s - 1).toNat = s.toNat - 1 :=
      UInt64.toNat_sub_of_le _ _ (UInt64.le_iff_toNat_le.mpr (by
        simp only [UInt64.reduceToNat]
        omega))
    refine ⟨s - 1, mem_backPointerSequence.mpr ?_, by omega⟩
    rw [hpred]
    exact pred_mem_epochPointers (by omega)

/-! ## The walk -/

/-- The pointers of all epochs of a path, largest first and each once. -/
def pathSiblings (path : List UInt64) : List UInt64 :=
  ((∅ : EpochSet).insertMany (path.flatMap backPointerSequence)).toList.reverse

variable {path : List UInt64}

theorem mem_pathSiblings {t : UInt64} :
    t ∈ pathSiblings path ↔ ∃ s ∈ path, t ∈ backPointerSequence s := by
  rw [pathSiblings, List.mem_reverse, Std.ExtTreeSet.mem_toList, Std.ExtTreeSet.mem_insertMany_list]
  simp

theorem pathSiblings_nodup (path : List UInt64) : (pathSiblings path).Nodup := by
  rw [pathSiblings, List.nodup_reverse]
  exact nodup_toList _

/-- Where the walk goes next does not depend on the sets. -/
theorem visitPointers_fst (stop : UInt64) (roots : EpochSet) (pointers : List UInt64)
    (start : UInt64) (siblings : EpochSet) :
    (visitPointers stop roots pointers start siblings).1 =
      lastAbove UInt64.toNat stop start pointers := by
  induction pointers generalizing start siblings with
  | nil => rfl
  | cons t ts ih =>
    rw [visitPointers, ih]
    simp only [ge_iff_le, UInt64.le_iff_toNat_le]
    rfl

theorem visitPointers_eq (stop : UInt64) (roots : EpochSet) (pointers : List UInt64)
    (start : UInt64) (siblings : EpochSet) (hnew : ∀ t ∈ pointers, t ∉ roots) :
    visitPointers stop roots pointers start siblings =
      (lastAbove UInt64.toNat stop start pointers, siblings.insertMany pointers) := by
  induction pointers generalizing start siblings with
  | nil =>
    rw [visitPointers, Std.ExtTreeSet.insertMany_nil]
    rfl
  | cons t ts ih =>
    have hfresh : ¬ roots.contains t = true := by
      rw [Std.ExtTreeSet.contains_iff_mem]
      exact hnew t List.mem_cons_self
    rw [visitPointers, ih _ _ (fun u hu => hnew u (List.mem_cons_of_mem _ hu)), if_neg hfresh,
      Std.ExtTreeSet.insertMany_cons]
    simp only [ge_iff_le, UInt64.le_iff_toNat_le]
    rfl

theorem collectLoop_eq {stop start : UInt64} (hd : Descends UInt64.toNat backPointerSequence stop)
    (h : Descent UInt64.toNat backPointerSequence stop start path) (turns : Nat)
    (before : List UInt64) (roots siblings : EpochSet) (hturns : start.toNat ≤ turns)
    (hroots : ∀ r ∈ roots, start.toNat < r.toNat) :
    collectLoop stop turns start before roots siblings =
      some (before ++ path, siblings.insertMany (path.flatMap backPointerSequence)) := by
  induction h generalizing turns before roots siblings with
  | @done start hle =>
    have hstop : ¬ start > stop := by
      rw [gt_iff_lt, UInt64.lt_iff_toNat_lt]
      omega
    cases turns <;>
      rw [collectLoop, if_neg hstop, List.append_nil, List.flatMap_nil,
        Std.ExtTreeSet.insertMany_nil]
  | @step start path hlt rest ih =>
    obtain ⟨-, -, hnext⟩ := hd.jump hlt
    obtain ⟨turns, rfl⟩ : ∃ n, turns = n + 1 := ⟨turns - 1, by omega⟩
    -- the roots collected so far lie at or above `start`, its pointers below it
    have hroots' : ∀ r ∈ roots.insert start, start.toNat ≤ r.toNat := by
      intro r hr
      rcases Std.ExtTreeSet.mem_insert.mp hr with heq | hr
      · rw [Std.LawfulEqCmp.eq_of_compare heq]
      · exact (hroots r hr).le
    have hnew : ∀ t ∈ backPointerSequence start, t ∉ roots.insert start := by
      intro t ht hmem
      have := hd.lower start t ht
      have := hroots' t hmem
      omega
    rw [collectLoop, if_pos (UInt64.lt_iff_toNat_lt.mpr hlt)]
    simp only [visitPointers_eq stop _ _ start siblings hnew]
    rw [ih turns _ _ _ (by omega) (fun r hr => by have := hroots' r hr; omega),
      List.flatMap_cons, Std.ExtTreeSet.insertMany_append, List.append_assoc]
    rfl

theorem collectRoots_eq {stop start : UInt64} (hstop : 0 < stop.toNat)
    (h : Descent UInt64.toNat backPointerSequence stop start path) :
    collectRoots start stop = some (path, pathSiblings path) := by
  rw [collectRoots, collectLoop_eq (descends hstop) h _ _ _ _ (le_refl _) (fun r hr => by
    simp at hr)]
  rfl

end Foks.MerkleStore
