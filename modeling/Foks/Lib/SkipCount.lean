/-
  How many points the skip pointers of a descent name.

  A descent along skip pointers from `n` to `stop` first clears the low bits of `n`, one a
  step, until the next jump of that kind would pass `stop`; from there the distance to `stop`
  is below the lowest set bit, and the jumps are the bits of that distance, highest first.
  In the first part the pointers of different points lie in disjoint intervals. In the second
  part a point shares exactly one pointer with the points before it. The count follows: it is
  a sum over the bits of the two numbers.
-/
import Foks.Lib.Descent
import Foks.Lib.SkipPointers
import Mathlib.Data.Nat.BitIndices

namespace Foks.Lib

/-! ## Bits -/

theorem bitIndices_add_top {k r : Nat} (h : r < 2 ^ k) :
    (2 ^ k + r).bitIndices = r.bitIndices ++ [k] := by
  have hsorted : (r.bitIndices ++ [k]).SortedLT := by
    refine List.Pairwise.sortedLT (List.pairwise_append.mpr ⟨Nat.bitIndices_sorted.pairwise,
      List.pairwise_singleton .., fun a ha b hb => ?_⟩)
    rw [List.mem_singleton.mp hb]
    exact (Nat.pow_lt_pow_iff_right (by omega)).mp
      ((Nat.two_pow_le_of_mem_bitIndices ha).trans_lt h)
  have hsum := Nat.bitIndices_sum_map_two_pow hsorted
  rwa [List.map_append, List.sum_append, Nat.sum_map_two_pow_bitIndices, List.map_singleton,
    List.sum_singleton, Nat.add_comm] at hsum

theorem bitIndices_lowBit {l : Nat} (hl : 0 < l) :
    l.bitIndices = lowBit l :: (l - 2 ^ lowBit l).bitIndices := by
  obtain ⟨q, hq⟩ := (pow_dvd_iff hl).mpr (le_refl (lowBit l))
  have hodd : q % 2 = 1 := by
    have hnot : ¬ 2 ^ (lowBit l + 1) ∣ l := by
      rw [pow_dvd_iff hl]
      omega
    generalize lowBit l = t at hq hnot
    rw [hq, Nat.pow_succ, Nat.mul_dvd_mul_iff_left (Nat.two_pow_pos _)] at hnot
    omega
  have hrest : l - 2 ^ lowBit l = 2 ^ lowBit l * (2 * (q / 2)) := by
    rw [show 2 * (q / 2) = q - 1 by omega, Nat.mul_sub, ← hq, Nat.mul_one]
  have hfirst : l.bitIndices = (2 ^ lowBit l * (2 * (q / 2) + 1)).bitIndices := by
    rw [show 2 * (q / 2) + 1 = q by omega, ← hq]
  rw [hfirst, hrest, Nat.bitIndices_two_pow_mul, Nat.bitIndices_two_pow_mul,
    Nat.bitIndices_two_mul_add_one, Nat.bitIndices_two_mul, List.map_cons, Nat.zero_add]

/-- The sum of the bits of a number but its lowest. -/
def upperBits (r : Nat) : Nat := r.bitIndices.tail.sum

theorem upperBits_two_pow (k : Nat) : upperBits (2 ^ k) = 0 := by
  rw [upperBits, Nat.bitIndices_two_pow]
  rfl

theorem upperBits_add_top {k r : Nat} (hpos : 0 < r) (h : r < 2 ^ k) :
    upperBits (2 ^ k + r) = k + upperBits r := by
  rw [upperBits, upperBits, bitIndices_add_top h, bitIndices_lowBit hpos]
  simp [Nat.add_comm]

/-- The bit in which two numbers part. -/
theorem log2_xor {n p : Nat} (h : p < n) :
    n / 2 ^ Nat.log2 (n ^^^ p) = p / 2 ^ Nat.log2 (n ^^^ p) + 1 ∧
      2 ∣ p / 2 ^ Nat.log2 (n ^^^ p) := by
  have hne : n ^^^ p ≠ 0 := by
    rw [Ne, Nat.xor_eq_zero_iff]
    omega
  generalize hd : Nat.log2 (n ^^^ p) = d
  have htop : (n ^^^ p) / 2 ^ d = 1 := by
    have hlow := Nat.log2_self_le hne
    have hhigh := @Nat.lt_log2_self (n ^^^ p)
    rw [hd] at hlow hhigh
    rw [Nat.pow_succ] at hhigh
    exact Nat.div_eq_of_lt_le (by omega) (by omega)
  rw [← Nat.shiftRight_eq_div_pow, Nat.shiftRight_xor_distrib, Nat.shiftRight_eq_div_pow,
    Nat.shiftRight_eq_div_pow] at htop
  have hle : p / 2 ^ d ≤ n / 2 ^ d := Nat.div_le_div_right h.le
  generalize n / 2 ^ d = a at *
  generalize p / 2 ^ d = b at *
  have hhalf : a / 2 = b / 2 := by
    have hzero : (a ^^^ b) >>> 1 = 0 := by
      rw [htop]
      rfl
    rw [Nat.shiftRight_xor_distrib, Nat.xor_eq_zero_iff] at hzero
    simpa [Nat.shiftRight_eq_div_pow] using hzero
  have hbit : (a ^^^ b).testBit 0 = true := by rw [htop]; rfl
  rw [Nat.testBit_xor, Nat.testBit_zero, Nat.testBit_zero] at hbit
  by_cases ha : a % 2 = 1 <;> by_cases hb : b % 2 = 1 <;> simp [ha, hb] at hbit <;> omega

/-! ## Jumps -/

/-- On a falling list the pass ends at the lowest pointer that is not below `stop`. -/
theorem lastAbove_le {stop s t : Nat} {pointers : List Nat} (hfall : pointers.Pairwise (· > ·))
    (ht : t ∈ pointers) (hle : stop ≤ t) : lastAbove id stop s pointers ≤ t := by
  induction pointers generalizing s with
  | nil => cases ht
  | cons u us ih =>
    have hstep : lastAbove id stop s (u :: us) =
        lastAbove id stop (if stop ≤ u then u else s) us := rfl
    obtain ⟨hhead, htail⟩ := List.pairwise_cons.mp hfall
    rw [hstep]
    rcases List.mem_cons.mp ht with rfl | ht
    · rw [if_pos hle]
      rcases @lastAbove_cases _ id stop t us with ⟨hmem, -⟩ | ⟨heq, -⟩
      · exact (hhead _ hmem).le
      · exact heq.le
    · exact ih htail ht

/-- The jump goes as far as divisibility and `stop` allow. -/
theorem lastAbove_skips {stop s k : Nat} (hstop : 0 < stop) (hk : 2 ^ k ∣ s)
    (hge : stop + 2 ^ k ≤ s) (hmax : ∀ j, 2 ^ j ∣ s → stop + 2 ^ j ≤ s → j ≤ k) :
    lastAbove id stop s (skips s) = s - 2 ^ k := by
  have hs : 0 < s := by omega
  have hmem : s - 2 ^ k ∈ skips s := (mem_skips hs).mpr ⟨k, hk, by omega, rfl⟩
  have hle : stop ≤ s - 2 ^ k := by omega
  refine le_antisymm (lastAbove_le (skips_decreasing hs) hmem hle) ?_
  obtain ⟨hjump, habove⟩ := @lastAbove_mem _ id stop s _ _ hmem hle
  obtain ⟨j, hj, hjlt, heq⟩ := (mem_skips hs).mp hjump
  rw [heq] at habove ⊢
  have habove : stop ≤ s - 2 ^ j := habove
  have : 2 ^ j ≤ 2 ^ k := Nat.pow_le_pow_right (by omega) (hmax j hj (by omega))
  omega

theorem lowBit_sub {s k : Nat} (hk : k < lowBit s) (hlt : 2 ^ k < s) : lowBit (s - 2 ^ k) = k := by
  have := Nat.two_pow_pos k
  have hs : 0 < s := by omega
  have hpos : 0 < s - 2 ^ k := by omega
  have hnext : 2 ^ (k + 1) ∣ s := (pow_dvd_iff hs).mpr hk
  have hle : 2 ^ k ∣ s - 2 ^ k :=
    Nat.dvd_sub ((Nat.pow_dvd_pow 2 (Nat.le_succ k)).trans hnext) (dvd_refl _)
  have hnot : ¬ 2 ^ (k + 1) ∣ s - 2 ^ k := by
    intro h
    have hself : 2 ^ (k + 1) ∣ 2 ^ k := by
      have hsub := Nat.dvd_sub hnext h
      rwa [Nat.sub_sub_self hlt.le] at hsub
    have := Nat.le_of_dvd (Nat.two_pow_pos k) hself
    rw [Nat.pow_succ] at this
    have := Nat.two_pow_pos k
    omega
  rw [pow_dvd_iff hpos] at hle hnot
  omega

/-! ## Counts -/

theorem skips_nodup {s : Nat} (hs : 0 < s) : (skips s).Nodup :=
  (skips_decreasing hs).imp fun h => (Nat.ne_of_gt h)

theorem card_skips {s : Nat} (hs : 0 < s) : (skips s).toFinset.card = skipCount s := by
  rw [List.toFinset_card_of_nodup (skips_nodup hs), skips, List.length_map, List.length_range]

theorem mem_skips_bounds {s t : Nat} (hs : 0 < s) (ht : t ∈ skips s) :
    s - 2 ^ lowBit s ≤ t ∧ t < s := by
  obtain ⟨j, hj, -, rfl⟩ := (mem_skips hs).mp ht
  have : 2 ^ j ≤ 2 ^ lowBit s := Nat.pow_le_pow_right (by omega) ((pow_dvd_iff hs).mp hj)
  have := Nat.two_pow_pos j
  omega

/-- The points that the pointers of a path name. -/
def pointerSet (targets : Nat → List Nat) (path : List Nat) : Finset Nat :=
  (path.flatMap targets).toFinset

variable {path : List Nat} {targets : Nat → List Nat}

theorem mem_pointerSet {t : Nat} : t ∈ pointerSet targets path ↔ ∃ s ∈ path, t ∈ targets s := by
  rw [pointerSet, List.mem_toFinset, List.mem_flatMap]

theorem pointerSet_cons (targets : Nat → List Nat) (s : Nat) (path : List Nat) :
    pointerSet targets (s :: path) = (targets s).toFinset ∪ pointerSet targets path := by
  rw [pointerSet, pointerSet, List.flatMap_cons, List.toFinset_append]

section Counts

variable {targets : Nat → List Nat} {stop : Nat} (hd : Descends id targets stop)
  (hskips : ∀ s, stop < s → targets s = skips s) (hstop : 0 < stop)

include hd hskips hstop

theorem pointerSet_bounds {s t : Nat} (h : Descent id targets stop s path)
    (ht : t ∈ pointerSet targets path) : 0 < t ∧ t < s := by
  obtain ⟨u, hu, ht⟩ := mem_pointerSet.mp ht
  have hb : stop < u ∧ u ≤ s := h.mem_bounds hd hu
  rw [hskips u hb.1] at ht
  have := skips_pos (by omega) ht
  have := skips_lt (by omega) ht
  omega

/-- Once the distance is within the lowest set bit, the jumps are its bits. -/
theorem card_pointerSet_near {s : Nat} (h : Descent id targets stop s path) (hlt : stop < s)
    (hnear : s - stop ≤ 2 ^ lowBit s) : pointerSet targets path ⊆ Finset.Ico (s - 2 ^ lowBit s) s ∧
      (pointerSet targets path).card = skipCount s + upperBits (s - stop) := by
  induction h with
  | done hle => exact absurd hlt (Nat.not_lt.mpr hle)
  | @step s path _ rest ih =>
    have hs : 0 < s := by omega
    have hne : s - stop ≠ 0 := by omega
    -- the jump is the highest bit of the distance
    have hlow := Nat.log2_self_le hne
    have hhigh := @Nat.lt_log2_self (s - stop)
    generalize hkdef : Nat.log2 (s - stop) = k at hlow hhigh
    have hk : k ≤ lowBit s := by
      have : 2 ^ k ≤ 2 ^ lowBit s := by omega
      exact (Nat.pow_le_pow_iff_right (by omega)).mp this
    have hjump : lastAbove id stop s (targets s) = s - 2 ^ k := by
      rw [hskips s hlt]
      refine lastAbove_skips hstop ((pow_dvd_iff hs).mpr hk) (by omega) fun j _ hj => ?_
      have : 2 ^ j < 2 ^ (k + 1) := by omega
      have := (Nat.pow_lt_pow_iff_right (by omega)).mp this
      omega
    rw [hjump] at rest ih
    have hown : (skips s).toFinset ⊆ Finset.Ico (s - 2 ^ lowBit s) s := by
      intro t ht
      exact Finset.mem_Ico.mpr (mem_skips_bounds hs (List.mem_toFinset.mp ht))
    rw [pointerSet_cons, hskips s hlt]
    by_cases hend : s - 2 ^ k = stop
    · have hpath : path = [] := by
        cases rest with
        | done => rfl
        | step hgt => exact absurd hgt (by simp only [id, hend]; omega)
      rw [hpath, show s - stop = 2 ^ k by omega, upperBits_two_pow, Nat.add_zero,
        ← card_skips hs]
      simpa [pointerSet] using hown
    · have hkLt : k < lowBit s := by
        rcases hk.lt_or_eq with hk | rfl
        · exact hk
        · omega
      have hbit : lowBit (s - 2 ^ k) = k := lowBit_sub hkLt (by omega)
      rw [Nat.pow_succ] at hhigh
      obtain ⟨hsub, hcard⟩ := ih (by omega) (by rw [hbit]; omega)
      rw [hbit] at hsub
      have hnext : 2 ^ (k + 1) ∣ s := (pow_dvd_iff hs).mpr hkLt
      have hpow : 2 ^ (k + 1) = 2 ^ k + 2 ^ k := by rw [Nat.pow_succ]; omega
      have hwide : 2 ^ (k + 1) ≤ 2 ^ lowBit s := Nat.pow_le_pow_right (by omega) hkLt
      have hpositive : ∀ t ∈ pointerSet targets path, 0 < t := fun t ht =>
        (pointerSet_bounds hd hskips hstop rest ht).1
      -- this point shares at most one pointer with the ones after it
      have hshared : ∀ t ∈ skips s, t ∈ pointerSet targets path → t = s - 2 ^ (k + 1) := by
        intro t ht hmem
        obtain ⟨j, -, hjs, rfl⟩ := (mem_skips hs).mp ht
        have hb := Finset.mem_Ico.mp (hsub hmem)
        have hle := Nat.le_of_dvd hs hnext
        have hkj : k < j := (Nat.pow_lt_pow_iff_right (by omega)).mp (show 2 ^ k < 2 ^ j by omega)
        have hjk : j ≤ k + 1 :=
          (Nat.pow_le_pow_iff_right (by omega)).mp (show 2 ^ j ≤ 2 ^ (k + 1) by omega)
        rw [show j = k + 1 by omega]
      have hothers : pointerSet targets path \ (skips s).toFinset =
          (pointerSet targets path).erase (s - 2 ^ (k + 1)) := by
        ext t
        simp only [Finset.mem_sdiff, List.mem_toFinset, Finset.mem_erase]
        constructor
        · rintro ⟨hmem, hnot⟩
          refine ⟨fun ht => hnot ?_, hmem⟩
          have := hpositive t hmem
          exact (mem_skips hs).mpr ⟨k + 1, hnext, by omega, ht⟩
        · rintro ⟨hne, hmem⟩
          exact ⟨hmem, fun ht => hne (hshared t ht hmem)⟩
      have hnew : ((pointerSet targets path).erase (s - 2 ^ (k + 1))).card =
          k + upperBits (s - 2 ^ k - stop) := by
        rw [skipCount, hbit] at hcard
        by_cases hpure : s - 2 ^ k = 2 ^ k
        · rw [if_pos hpure] at hcard
          rw [Finset.erase_eq_of_notMem, hcard]
          intro hmem
          have := hpositive _ hmem
          omega
        · have hmem : s - 2 ^ (k + 1) ∈ pointerSet targets path := by
            have habove : stop < s - 2 ^ k := by omega
            cases rest with
            | done hle => exact absurd habove (Nat.not_lt.mpr hle)
            | step _ _ =>
              rw [pointerSet_cons, Finset.mem_union, List.mem_toFinset, hskips _ habove]
              refine .inl ((mem_skips (by omega)).mpr ⟨k, ?_, ?_, by omega⟩)
              · rw [pow_dvd_iff (by omega), hbit]
              · have := Nat.le_of_dvd (by omega) ((pow_dvd_iff (by omega)).mpr hbit.ge)
                omega
          rw [if_neg hpure] at hcard
          rw [Finset.card_erase_of_mem hmem, hcard]
          omega
      refine ⟨Finset.union_subset hown (hsub.trans (Finset.Ico_subset_Ico (by omega) (by omega))),
        ?_⟩
      rw [Finset.union_comm, ← Finset.card_sdiff_add_card, hothers, hnew, card_skips hs,
        Nat.add_comm, show s - stop = 2 ^ k + (s - 2 ^ k - stop) by omega,
        upperBits_add_top (by omega) (by omega)]

/-- Before that, each step clears the lowest bit. -/
theorem card_pointerSet {m low : Nat} (hm : stop < m) (hnear : m - stop ≤ 2 ^ lowBit m)
    (hlow : low < 2 ^ lowBit m) (h : Descent id targets stop (m + low) path) :
    (pointerSet targets path).card =
      (low.bitIndices.map (· + 1)).sum + (skipCount m + upperBits (m - stop)) := by
  induction low using Nat.strong_induction_on generalizing path with
  | _ low ih =>
    rcases Nat.eq_zero_or_pos low with rfl | hpos
    · rw [(card_pointerSet_near hd hskips hstop h hm hnear).2]
      simp
    · have hbelow := pow_lowBit_le hpos
      have hbitLt : lowBit low < lowBit m :=
        (Nat.pow_lt_pow_iff_right (by omega)).mp (hbelow.trans_lt hlow)
      have hbit : lowBit (m + low) = lowBit low := by
        have hdvd (k : Nat) (hk : k ≤ lowBit m) : k ≤ lowBit (m + low) ↔ k ≤ lowBit low := by
          rw [← pow_dvd_iff (by omega), ← pow_dvd_iff hpos]
          exact Nat.dvd_add_right ((pow_dvd_iff (by omega)).mpr hk)
        have hle := (hdvd (lowBit low) hbitLt.le).mpr (le_refl _)
        have hnot := (hdvd (lowBit low + 1) hbitLt).not.mpr (by omega)
        omega
      have hlt : stop < m + low := by omega
      have hs : 0 < m + low := by omega
      cases h with
      | done hle => exact absurd hlt (Nat.not_lt.mpr hle)
      | @step _ path _ rest =>
        have hjump : lastAbove id stop (m + low) (targets (m + low)) =
            m + (low - 2 ^ lowBit low) := by
          rw [hskips _ hlt, lastAbove_skips hstop ((pow_dvd_iff hs).mpr hbit.ge) (by omega)
            fun j hj _ => hbit ▸ (pow_dvd_iff hs).mp hj]
          omega
        rw [hjump] at rest
        have hless : low - 2 ^ lowBit low < low := by
          have := Nat.two_pow_pos (lowBit low)
          omega
        have hrest := ih (low - 2 ^ lowBit low) hless (hless.trans hlow) rest
        have hdisjoint : Disjoint (skips (m + low)).toFinset (pointerSet targets path) := by
          rw [Finset.disjoint_left]
          intro t ht hmem
          have hown := (mem_skips_bounds hs (List.mem_toFinset.mp ht)).1
          have hlater := (pointerSet_bounds hd hskips hstop rest hmem).2
          rw [hbit] at hown
          omega
        rw [pointerSet_cons, hskips _ hlt, Finset.card_union_of_disjoint hdisjoint,
          card_skips hs, hrest, skipCount, hbit, if_neg (by omega), bitIndices_lowBit hpos,
          List.map_cons, List.sum_cons]
        omega

end Counts

/-- The number of points that the pointers between `n` and `stop` name. -/
def skipPointerCount (n stop : Nat) : Nat :=
  let d := Nat.log2 (n ^^^ stop)
  let m := n - n % 2 ^ d
  ((n % 2 ^ d).bitIndices.map (· + 1)).sum + ((if m = 2 ^ d then d else d + 1) +
    upperBits (m - stop))

theorem card_pointerSet_eq {n stop : Nat} (hd : Descends id targets stop)
    (hskips : ∀ s, stop < s → targets s = skips s) (hstop : 0 < stop) (hlt : stop < n)
    (h : Descent id targets stop n path) :
    (pointerSet targets path).card = skipPointerCount n stop := by
  unfold skipPointerCount
  obtain ⟨hquot, heven⟩ := log2_xor hlt
  generalize Nat.log2 (n ^^^ stop) = d at hquot heven ⊢
  have hpow := Nat.two_pow_pos d
  have hn := Nat.div_add_mod n (2 ^ d)
  have hp := Nat.div_add_mod stop (2 ^ d)
  have hnmod := Nat.mod_lt n hpow
  have hpmod := Nat.mod_lt stop hpow
  rw [hquot, Nat.mul_add, Nat.mul_one] at hn
  simp only
  -- the point above `stop` at which the bits below `d` are cleared
  have hm : n - n % 2 ^ d = 2 ^ d * (stop / 2 ^ d + 1) := by
    rw [Nat.mul_add, Nat.mul_one]
    omega
  have hmpos : 0 < n - n % 2 ^ d := by
    rw [hm]
    positivity
  have hbit : lowBit (n - n % 2 ^ d) = d := by
    have hle : 2 ^ d ∣ n - n % 2 ^ d := hm ▸ Nat.dvd_mul_right ..
    have hnot : ¬ 2 ^ (d + 1) ∣ n - n % 2 ^ d := by
      rw [hm, Nat.pow_succ, Nat.mul_dvd_mul_iff_left hpow]
      omega
    rw [pow_dvd_iff hmpos] at hle hnot
    omega
  have hsplit : n = n - n % 2 ^ d + n % 2 ^ d := by omega
  have hpath : Descent id targets stop (n - n % 2 ^ d + n % 2 ^ d) path := by rwa [← hsplit]
  rw [card_pointerSet hd hskips hstop (by omega) (by rw [hbit]; omega) (by rw [hbit]; exact hnmod)
    hpath, skipCount, hbit]

end Foks.Lib
