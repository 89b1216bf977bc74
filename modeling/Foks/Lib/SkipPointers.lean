/-
  Skip pointers on the numbers.

  A number `s` points to `s - 1`, `s - 2`, `s - 4`, … up to the largest power of two that
  divides it, as far as these are positive. `skips s` is that list, largest first. A loop that
  doubles a distance until it meets the lowest set bit of `s` computes it.
-/
import Mathlib.NumberTheory.Padics.PadicVal.Basic
import Mathlib.Data.Nat.Bitwise
import Mathlib.Tactic

namespace Foks.Lib

/-- The exponent of the lowest set bit. -/
def lowBit (s : Nat) : Nat := padicValNat 2 s

theorem pow_dvd_iff {s k : Nat} (hs : 0 < s) : 2 ^ k ∣ s ↔ k ≤ lowBit s :=
  padicValNat_dvd_iff_le hs.ne'

theorem pow_lowBit_le {s : Nat} (hs : 0 < s) : 2 ^ lowBit s ≤ s :=
  Nat.le_of_dvd hs ((pow_dvd_iff hs).mpr (le_refl _))

/-- How many pointers `s` has: a pure power of two does not point to zero. -/
def skipCount (s : Nat) : Nat := if s = 2 ^ lowBit s then lowBit s else lowBit s + 1

def skips (s : Nat) : List Nat := (List.range (skipCount s)).map (fun i => s - 2 ^ i)

theorem lt_skipCount_iff {s k : Nat} (hs : 0 < s) : k < skipCount s ↔ 2 ^ k ∣ s ∧ 2 ^ k < s := by
  have hle := pow_lowBit_le hs
  rw [pow_dvd_iff hs, skipCount]
  split
  · rename_i heq
    constructor
    · intro hk
      have : 2 ^ k < 2 ^ lowBit s := Nat.pow_lt_pow_right (by omega) hk
      exact ⟨by omega, by omega⟩
    · rintro ⟨-, hlt⟩
      rw [heq] at hlt
      exact (Nat.pow_lt_pow_iff_right (by omega)).mp hlt
  · rename_i hne
    constructor
    · intro hk
      have : 2 ^ k ≤ 2 ^ lowBit s := Nat.pow_le_pow_right (by omega) (by omega)
      exact ⟨by omega, by omega⟩
    · rintro ⟨hk, -⟩
      omega

theorem mem_skips {s t : Nat} (hs : 0 < s) :
    t ∈ skips s ↔ ∃ i, 2 ^ i ∣ s ∧ 2 ^ i < s ∧ t = s - 2 ^ i := by
  simp only [skips, List.mem_map, List.mem_range, lt_skipCount_iff hs, and_assoc, eq_comm]

theorem skips_lt {s t : Nat} (hs : 0 < s) (ht : t ∈ skips s) : t < s := by
  obtain ⟨i, -, -, rfl⟩ := (mem_skips hs).mp ht
  have : 0 < 2 ^ i := Nat.two_pow_pos i
  omega

theorem skips_pos {s t : Nat} (hs : 0 < s) (ht : t ∈ skips s) : 0 < t := by
  obtain ⟨i, -, hlt, rfl⟩ := (mem_skips hs).mp ht
  omega

theorem pred_mem_skips {s : Nat} (hs : 1 < s) : s - 1 ∈ skips s :=
  (mem_skips (by omega)).mpr ⟨0, by simp, by simpa using hs, by simp⟩

theorem skips_decreasing {s : Nat} (hs : 0 < s) : (skips s).Pairwise (· > ·) := by
  rw [skips, List.pairwise_map]
  refine List.Pairwise.imp_of_mem ?_ List.pairwise_lt_range
  intro i j _ hj hij
  have hlt := ((lt_skipCount_iff hs).mp (List.mem_range.mp hj)).2
  have : 2 ^ i < 2 ^ j := Nat.pow_lt_pow_right (by omega) hij
  omega

/-- A number below `2 ^ n` has fewer than `n` pointers. -/
theorem skipCount_lt {s n : Nat} (hs : 0 < s) (hlt : s < 2 ^ n) : skipCount s < n := by
  by_contra hge
  have hn : 0 < n := by
    rcases Nat.eq_zero_or_pos n with rfl | h
    · simp at hlt
      omega
    · exact h
  obtain ⟨⟨m, hm⟩, hpow⟩ := (lt_skipCount_iff hs).mp (show n - 1 < skipCount s by omega)
  have htwo : 2 ^ n = 2 ^ (n - 1) * 2 := by
    rw [← Nat.pow_succ]
    congr 1
    omega
  have hm1 : 1 < m := by
    by_contra h
    have hle : 2 ^ (n - 1) * m ≤ 2 ^ (n - 1) * 1 := Nat.mul_le_mul_left _ (by omega)
    omega
  have : 2 ^ (n - 1) * 2 ≤ 2 ^ (n - 1) * m := Nat.mul_le_mul_left _ hm1
  omega

/-- Below the lowest set bit all bits are clear: the bit at `k` decides where the doubling stops. -/
theorem testBit_of_pow_dvd {s k : Nat} (hs : 0 < s) (hdvd : 2 ^ k ∣ s) :
    s.testBit k = true ↔ k = lowBit s := by
  have hk := (pow_dvd_iff hs).mp hdvd
  have hnext := @pow_dvd_iff s (k + 1) hs
  obtain ⟨m, rfl⟩ := hdvd
  rw [Nat.testBit_two_pow_mul]
  simp only [le_refl, decide_true, Bool.true_and, Nat.sub_self, Nat.testBit_zero, decide_eq_true_eq]
  rw [Nat.pow_succ, Nat.mul_dvd_mul_iff_left (Nat.two_pow_pos k)] at hnext
  omega

end Foks.Lib
