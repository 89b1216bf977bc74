/-
  The highest entries of a list without duplicates: an entry is among the first `n` of the falling
  order when fewer than `n` entries are above it.
-/
import Mathlib.Data.List.Sort

namespace Foks.Lib

variable {α : Type*} [LinearOrder α]

/-- In a falling list, the entries above an entry are those before it. -/
theorem countP_above_getElem {l : List α} (hfall : l.Pairwise (· > ·)) :
    ∀ n (hn : n < l.length), l.countP (l[n] < ·) = n := by
  induction l with
  | nil => exact fun n hn => absurd hn (Nat.not_lt_zero n)
  | cons x xs ih =>
    obtain ⟨hhead, htail⟩ := List.pairwise_cons.mp hfall
    intro n hn
    cases n with
    | zero =>
      refine List.countP_eq_zero.mpr fun y hy => ?_
      rcases List.mem_cons.mp hy with rfl | hy
      · simp
      · simpa using le_of_lt (hhead y hy)
    | succ n =>
      have hn : n < xs.length := Nat.lt_of_succ_lt_succ hn
      have hbelow : xs[n] < x := hhead _ (List.getElem_mem hn)
      simp [ih htail n hn, hbelow]

variable {l : List α} {n : Nat}

theorem falling_insertionSort (hnodup : l.Nodup) :
    (l.insertionSort (· ≥ ·)).Pairwise (· > ·) := by
  have hsorted := List.pairwise_insertionSort (· ≥ ·) l
  have hdistinct : (l.insertionSort (· ≥ ·)).Nodup :=
    (List.perm_insertionSort _ l).nodup_iff.mpr hnodup
  exact (hsorted.and hdistinct).imp fun ⟨hge, hne⟩ => lt_of_le_of_ne hge hne.symm

/-- The entries from the one at place `n` up are those with at most `n` entries above them. -/
theorem countP_above_le_iff (hnodup : l.Nodup) {cutoff : α}
    (hcutoff : (l.insertionSort (· ≥ ·))[n]? = some cutoff) {x : α} (hx : x ∈ l) :
    l.countP (x < ·) ≤ n ↔ cutoff ≤ x := by
  have hfall := falling_insertionSort hnodup
  have hperm := List.perm_insertionSort (· ≥ ·) l
  obtain ⟨hn, rfl⟩ := List.getElem?_eq_some_iff.mp hcutoff
  obtain ⟨i, hi, rfl⟩ := List.mem_iff_getElem.mp (hperm.mem_iff.mpr hx)
  rw [← hperm.countP_eq, countP_above_getElem hfall i hi]
  constructor
  · intro hle
    rcases hle.eq_or_lt with rfl | hlt
    · exact le_refl _
    · exact le_of_lt (List.pairwise_iff_getElem.mp hfall i n hi hn hlt)
  · intro hle
    by_contra hlt
    exact absurd hle (not_le.mpr (List.pairwise_iff_getElem.mp hfall n i hn hi (not_le.mp hlt)))

theorem length_le_of_countP_above (hnodup : l.Nodup) (habove : ∀ x ∈ l, l.countP (x < ·) < n) :
    l.length ≤ n := by
  have hfall := falling_insertionSort hnodup
  have hperm := List.perm_insertionSort (· ≥ ·) l
  by_contra hlong
  have hn : n < (l.insertionSort (· ≥ ·)).length := by rw [hperm.length_eq]; omega
  have hcount := habove _ (hperm.mem_iff.mp (List.getElem_mem hn))
  rw [← hperm.countP_eq, countP_above_getElem hfall n hn] at hcount
  exact lt_irrefl n hcount

end Foks.Lib
