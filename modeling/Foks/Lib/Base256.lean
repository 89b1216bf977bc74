/-
  Numbers in base 256, compared digit by digit.

  `fraction digits` is the number below one whose digits after the point are `digits`. Two fractions
  compare as their first different digits do, and zeros at the end do not matter
  (`lexDigits_compares`). A string of digits whose first one is not zero is at least `1/256`, so of
  two scaled fractions the one with the larger exponent is the larger one
  (`fraction_mul_pow_lt`).
-/
import Foks.Lib.BigEndian
import Mathlib.Data.List.TakeWhile

namespace Foks.Lib

/-- The number `0.d₁d₂…`. -/
def fraction : List UInt8 → ℚ
  | [] => 0
  | digit :: digits => (digit.toNat + fraction digits) / 256

section

variable (digits : List UInt8)

theorem fraction_nonneg : 0 ≤ fraction digits := by
  induction digits with
  | nil => exact le_refl _
  | cons digit digits ih => exact div_nonneg (add_nonneg (Nat.cast_nonneg _) ih) (by norm_num)

theorem fraction_lt_one : fraction digits < 1 := by
  induction digits with
  | nil => norm_num [fraction]
  | cons digit digits ih =>
    have hdigit : (digit.toNat : ℚ) ≤ 255 := by exact_mod_cast Nat.le_of_lt_succ digit.toNat_lt
    rw [fraction, div_lt_one (by norm_num)]
    linarith

/-- The first digit and the rest, also of the empty string. -/
theorem fraction_eq_head_tail :
    fraction digits = ((digits.getD 0 0).toNat + fraction digits.tail) / 256 := by
  cases digits with
  | nil => norm_num [fraction]
  | cons digit digits => rfl

theorem fraction_append_zeros (n : Nat) :
    fraction (digits ++ List.replicate n 0) = fraction digits := by
  induction digits with
  | nil =>
    rw [List.nil_append]
    induction n with
    | zero => rfl
    | succ n ih =>
      have hcons : fraction (0 :: List.replicate n 0) =
        ((0 : UInt8).toNat + fraction (List.replicate n 0)) / 256 := rfl
      rw [List.replicate_succ, hcons, ih]
      norm_num [fraction]
  | cons digit digits ih => rw [List.cons_append, fraction, fraction, ih]

/-- Zeros before the digits only move the point. -/
theorem fraction_dropWhile :
    fraction (digits.dropWhile (· == 0)) * 256 ^ (digits.dropWhile (· == 0)).length =
      fraction digits * 256 ^ digits.length := by
  induction digits with
  | nil => rfl
  | cons digit digits ih =>
    rw [List.dropWhile_cons]
    split
    · rename_i hzero
      rw [ih, fraction, beq_iff_eq.mp hzero, List.length_cons, pow_succ]
      norm_num
      ring
    · rfl

theorem ofBE_cons (b : UInt8) (bs : List UInt8) :
    ofBE (b :: bs) = b.toNat * 256 ^ bs.length + ofBE bs := by
  induction bs using List.reverseRecOn with
  | nil => simp [ofBE]
  | append_singleton bs c ih =>
    rw [← List.cons_append, ofBE_concat, ih, ofBE_concat, List.length_append,
      List.length_singleton]
    ring

theorem fraction_mul_pow : fraction digits * 256 ^ digits.length = ofBE digits := by
  induction digits with
  | nil => norm_num [fraction, ofBE_nil]
  | cons digit digits ih =>
    rw [ofBE_cons, Nat.cast_add, ← ih, fraction, List.length_cons, pow_succ]
    push_cast
    ring

end

/-- The digits from the first to the last that is not zero, and the zeros after them. -/
theorem dropWhile_zeros_split {digits : List UInt8} (h : digits.dropWhile (· == 0) ≠ []) :
    ∃ digit core, digit ≠ 0 ∧ digits.dropWhile (· == 0) =
      digit :: core ++ List.replicate (digits.reverse.takeWhile (· == 0)).length 0 := by
  have hzeros : digits.reverse.takeWhile (· == 0) =
      List.replicate (digits.reverse.takeWhile (· == 0)).length 0 := by
    refine List.eq_replicate_iff.mpr ⟨rfl, fun digit hdigit => ?_⟩
    have hzero := List.mem_takeWhile_imp hdigit
    exact beq_iff_eq.mp hzero
  have hsplit : digits = (digits.reverse.dropWhile (· == 0)).reverse ++
      List.replicate (digits.reverse.takeWhile (· == 0)).length 0 := by
    conv_lhs => rw [← List.reverse_reverse digits,
      ← List.takeWhile_append_dropWhile (p := (· == 0)) (l := digits.reverse), List.reverse_append]
    rw [← List.reverse_replicate, ← hzeros]
  generalize (digits.reverse.takeWhile (· == 0)).length = n at hsplit ⊢
  generalize (digits.reverse.dropWhile (· == 0)).reverse = front at hsplit
  have hfront : front.dropWhile (· == 0) ≠ [] := by
    intro hnil
    rw [hsplit, List.dropWhile_append, hnil] at h
    simp at h
  obtain ⟨digit, core, hcore⟩ := List.exists_cons_of_ne_nil hfront
  have hdigit : ¬ (digit == 0) = true := by
    have hhead := List.head_dropWhile_not (· == 0) hfront
    simpa only [hcore, List.head_cons, Bool.not_eq_true] using hhead
  refine ⟨digit, core, fun hzero => hdigit (beq_iff_eq.mpr hzero), ?_⟩
  rw [hsplit, List.dropWhile_append, hcore]
  simp

theorem le_fraction {digit : UInt8} (digits : List UInt8) (h : digit ≠ 0) :
    1 / 256 ≤ fraction (digit :: digits) := by
  have hdigit : 1 ≤ (digit.toNat : ℚ) := by
    exact_mod_cast Nat.one_le_iff_ne_zero.mpr fun hzero => h (UInt8.toNat_inj.mp hzero)
  have hrest := fraction_nonneg digits
  rw [fraction, div_le_div_iff_of_pos_right (by norm_num)]
  linarith

/-- With a smaller exponent a fraction is smaller. -/
theorem fraction_mul_pow_lt {digit : UInt8} (left rest : List UInt8) (h : digit ≠ 0)
    {low high : ℤ} (hlt : low < high) :
    fraction left * 256 ^ low < fraction (digit :: rest) * 256 ^ high := by
  have hleft := fraction_lt_one left
  have hright := le_fraction rest h
  have hlow : (0 : ℚ) < 256 ^ low := by positivity
  have hstep : (256 : ℚ) ^ low * 256 ≤ 256 ^ high := by
    rw [← zpow_add_one₀ (by norm_num)]
    exact zpow_le_zpow_right₀ (by norm_num) hlt
  calc fraction left * 256 ^ low
      < 1 * 256 ^ low := by gcongr
    _ = 1 / 256 * (256 ^ low * 256) := by ring
    _ ≤ fraction (digit :: rest) * 256 ^ high := by gcongr

/-! ## Comparison -/

/-- The first different digit decides, and a digit that is missing is zero. -/
def lexDigits (left right : List UInt8) : Ordering :=
  (List.range (max left.length right.length)).foldr
    (fun index rest => (compare (left.getD index 0) (right.getD index 0)).then rest) .eq

theorem lexDigits_step {left right : List UInt8} (h : 0 < max left.length right.length) :
    lexDigits left right =
      (compare (left.getD 0 0) (right.getD 0 0)).then (lexDigits left.tail right.tail) := by
  have hmax : max left.length right.length = max left.tail.length right.tail.length + 1 := by
    simp only [List.length_tail]
    omega
  have hget (digits : List UInt8) (index : Nat) :
      digits.getD (index + 1) 0 = digits.tail.getD index 0 := by
    cases digits <;> rfl
  rw [lexDigits, hmax, List.range_succ_eq_map, List.foldr_cons, List.foldr_map]
  simp only [Nat.succ_eq_add_one, hget]
  rfl

theorem compares_digit {a b : UInt8} {x y : ℚ} {o : Ordering} (hx₀ : 0 ≤ x) (hx₁ : x < 1)
    (hy₀ : 0 ≤ y) (hy₁ : y < 1) (h : o.Compares x y) :
    ((compare a b).then o).Compares ((a.toNat + x) / 256) ((b.toNat + y) / 256) := by
  have hscale {u v : ℚ} (huv : u < v) : u / 256 < v / 256 :=
    div_lt_div_of_pos_right huv (by norm_num)
  have hnext {m n : Nat} (hmn : m < n) : (m : ℚ) + 1 ≤ n := by exact_mod_cast hmn
  rcases Nat.lt_trichotomy a.toNat b.toNat with hlt | heq | hgt
  · rw [Std.compare_eq_lt.mpr (UInt8.lt_iff_toNat_lt.mpr hlt)]
    have hnext := hnext hlt
    exact hscale (by linarith)
  · obtain rfl := UInt8.toNat_inj.mp heq
    rw [Std.compare_self, Ordering.eq_then]
    cases o with
    | lt => exact hscale (add_lt_add_right h _)
    | eq => exact congrArg (fun z => ((a.toNat : ℚ) + z) / 256) h
    | gt => exact hscale (add_lt_add_right h _)
  · rw [Std.compare_eq_gt.mpr (UInt8.lt_iff_toNat_lt.mpr hgt)]
    have hnext := hnext hgt
    exact hscale (by linarith)

theorem lexDigits_compares (left right : List UInt8) :
    (lexDigits left right).Compares (fraction left) (fraction right) := by
  induction hn : max left.length right.length generalizing left right with
  | zero =>
    have hleft : left = [] := List.length_eq_zero_iff.mp (by omega)
    have hright : right = [] := List.length_eq_zero_iff.mp (by omega)
    rw [hleft, hright]
    exact rfl
  | succ n ih =>
    rw [lexDigits_step (by omega), fraction_eq_head_tail left, fraction_eq_head_tail right]
    have htail : max left.tail.length right.tail.length = n := by
      simp only [List.length_tail]
      omega
    exact compares_digit (fraction_nonneg _) (fraction_lt_one _) (fraction_nonneg _)
      (fraction_lt_one _) (ih _ _ htail)

end Foks.Lib
