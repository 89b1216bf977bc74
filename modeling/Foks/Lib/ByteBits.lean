/-
  Bits of byte strings, most significant bit of the first byte first.

  `bitOf bs i` is bit `i` of `bs`. A bit range `start .. start + count` is cut out of a byte
  string as the bytes it touches, with the bits outside the range cleared at both ends
  (`clampEnds`, `bitRange`). Two cuts are equal exactly when the strings agree on the range
  (`bitRange_eq_iff`). Byte strings of one length compare as their bits do (`bitOf_mono`).
-/
import Mathlib.Data.Nat.Bitwise
import Foks.Lib.BigEndian
import Foks.Lib.BitTrie

namespace Foks.Lib

/-! ## Bits of a byte -/

/-- Bit `j` of a byte, counted from the most significant one. -/
def byteBit (b : UInt8) (j : Nat) : Bool := b &&& (1 <<< UInt8.ofNat (7 - j)) != 0

theorem byteBit_eq_testBit {j : Nat} (hj : j < 8) (b : UInt8) :
    byteBit b j = b.toNat.testBit (7 - j) := by
  revert b
  apply forall_byte
  revert j
  decide +kernel

theorem byteBit_and {j : Nat} (hj : j < 8) (x y : UInt8) :
    byteBit (x &&& y) j = (byteBit x j && byteBit y j) := by
  rw [byteBit_eq_testBit hj, byteBit_eq_testBit hj, byteBit_eq_testBit hj, UInt8.toNat_and,
    Nat.testBit_and]

theorem byteBit_xor {j : Nat} (hj : j < 8) (x y : UInt8) :
    byteBit (x ^^^ y) j = (byteBit x j ^^ byteBit y j) := by
  rw [byteBit_eq_testBit hj, byteBit_eq_testBit hj, byteBit_eq_testBit hj, UInt8.toNat_xor,
    Nat.testBit_xor]

theorem byteBit_zero (j : Nat) : byteBit 0 j = false := by simp [byteBit]

theorem byte_testBit_high (b : UInt8) {i : Nat} (hi : 8 ≤ i) : b.toNat.testBit i = false := by
  have hpow : 2 ^ 8 ≤ 2 ^ i := Nat.pow_le_pow_right (by omega) hi
  have hb := b.toNat_lt
  exact Nat.testBit_lt_two_pow (by omega)

theorem byte_ext {x y : UInt8} (h : ∀ j < 8, byteBit x j = byteBit y j) : x = y := by
  apply UInt8.toNat_inj.mp
  apply Nat.eq_of_testBit_eq
  intro i
  by_cases hi : i < 8
  · have hj := h (7 - i) (by omega)
    rwa [byteBit_eq_testBit (by omega), byteBit_eq_testBit (by omega),
      show 7 - (7 - i) = i by omega] at hj
  · rw [byte_testBit_high x (by omega), byte_testBit_high y (by omega)]

/-- `0xff >> s` keeps the bits from `s` on. -/
theorem byteBit_highMask {s j : Nat} (hs : s < 8) (hj : j < 8) :
    byteBit (0xff >>> UInt8.ofNat s) j = decide (s ≤ j) := by
  revert j
  revert s
  decide +kernel

/-- `0xff << (7 - e)` keeps the bits up to `e`. -/
theorem byteBit_lowMask {e j : Nat} (he : e < 8) (hj : j < 8) :
    byteBit (0xff <<< UInt8.ofNat (7 - e)) j = decide (j ≤ e) := by
  revert j
  revert e
  decide +kernel

/-! ## Bits of a byte string -/

/-- Bit `i` of a byte string; past its end there are only zeros. -/
def bitOf (bs : List UInt8) (i : Nat) : Bool :=
  match bs[i / 8]? with
  | some b => byteBit b (i % 8)
  | none => false

variable {bs : List UInt8}

theorem bitOf_eq {i : Nat} (h : i / 8 < bs.length) : bitOf bs i = byteBit bs[i / 8] (i % 8) := by
  rw [bitOf, List.getElem?_eq_getElem h]

theorem bytes_ext {cs : List UInt8} (hlen : bs.length = cs.length)
    (h : ∀ i < 8 * bs.length, bitOf bs i = bitOf cs i) : bs = cs := by
  apply List.ext_getElem hlen
  intro k hk hk'
  apply byte_ext
  intro j hj
  have hdiv : (8 * k + j) / 8 = k := by omega
  have hmod : (8 * k + j) % 8 = j := by omega
  have hbit := h (8 * k + j) (by omega)
  rw [bitOf_eq (by omega), bitOf_eq (by omega)] at hbit
  simpa only [hdiv, hmod] using hbit

/-! ## Bit ranges -/

/-- Clears the bits before `start` in the first byte and those after `endBit` in the last. -/
def clampEnds (start endBit : Nat) (bs : List UInt8) : List UInt8 :=
  let bs := bs.modify 0 (· &&& (0xff >>> UInt8.ofNat (start % 8)))
  bs.modify (bs.length - 1) (· &&& (0xff <<< UInt8.ofNat (7 - endBit % 8)))

@[simp] theorem clampEnds_length (start endBit : Nat) (bs : List UInt8) :
    (clampEnds start endBit bs).length = bs.length := by
  simp [clampEnds]

/-- A byte of the clamped string: masked at the front, at the back, at both or not at all. -/
theorem clampEnds_getElem {start endBit k : Nat} (h : k < bs.length) :
    (clampEnds start endBit bs)[k]? = some (bs[k]
      &&& (if k = 0 then 0xff >>> UInt8.ofNat (start % 8) else 0xff)
      &&& (if k + 1 = bs.length then 0xff <<< UInt8.ofNat (7 - endBit % 8) else 0xff)) := by
  have hff (x : UInt8) : x &&& 0xff = x := byte_ext fun j hj => by
    rw [byteBit_and hj]
    revert x
    apply forall_byte
    revert j
    decide +kernel
  unfold clampEnds
  simp only [List.length_modify, List.getElem?_modify, List.getElem?_eq_getElem h]
  by_cases hfirst : 0 = k <;> by_cases hlast : bs.length - 1 = k <;>
    simp [hfirst, hlast, hff, show (k = 0) = (0 = k) from propext eq_comm,
      show (k + 1 = bs.length) = (bs.length - 1 = k) from propext (by omega)]

/-- The bits of the clamped string are those between the two ends. -/
theorem bitOf_clampEnds {start endBit i : Nat} (hi : i < 8 * bs.length)
    (hlen : bs.length = endBit / 8 - start / 8 + 1) (hle : start ≤ endBit) :
    bitOf (clampEnds start endBit bs) i =
      (bitOf bs i && decide (start ≤ 8 * (start / 8) + i ∧ 8 * (start / 8) + i ≤ endBit)) := by
  have hk : i / 8 < bs.length := by omega
  have hj : i % 8 < 8 := Nat.mod_lt _ (by omega)
  rw [bitOf_eq hk, bitOf, clampEnds_getElem hk]
  simp only
  rw [byteBit_and hj, byteBit_and hj, Bool.and_assoc]
  congr 1
  have hall (j : Nat) (hj : j < 8) : byteBit 0xff j = true := by
    revert j
    decide
  split <;> split <;>
    simp only [byteBit_highMask, byteBit_lowMask, hall, hj, Nat.mod_lt, Nat.zero_lt_succ,
      Bool.and_true, Bool.true_and, ← Bool.decide_and] <;>
    first | (apply decide_eq_decide.mpr; omega) | (symm; apply decide_eq_true; omega)

/-- The bytes that hold the bits `start .. start + count`, the other bits cleared. -/
def bitRange (bs : List UInt8) (start count : Nat) : List UInt8 :=
  let endBit := start + count - 1
  clampEnds start endBit ((bs.drop (start / 8)).take (endBit / 8 - start / 8 + 1))

section Range

variable {bs cs : List UInt8} {start count : Nat}

theorem bitRange_length (hpos : count ≠ 0) (hle : start + count ≤ 8 * bs.length) :
    (bitRange bs start count).length = (start + count - 1) / 8 - start / 8 + 1 := by
  rw [bitRange, clampEnds_length, List.length_take, List.length_drop]
  omega

theorem bitOf_slice {a n i : Nat} (hi : i < 8 * n) :
    bitOf ((bs.drop a).take n) i = bitOf bs (8 * a + i) := by
  have hdiv : (8 * a + i) / 8 = a + i / 8 := by omega
  have hmod : (8 * a + i) % 8 = i % 8 := by omega
  rw [bitOf, bitOf, List.getElem?_take_of_lt (by omega), List.getElem?_drop, hdiv, hmod]

theorem bitOf_bitRange (hpos : count ≠ 0) (hle : start + count ≤ 8 * bs.length) {i : Nat}
    (hi : i < 8 * (bitRange bs start count).length) :
    bitOf (bitRange bs start count) i = (bitOf bs (8 * (start / 8) + i) &&
      decide (start ≤ 8 * (start / 8) + i ∧ 8 * (start / 8) + i < start + count)) := by
  have hlen := bitRange_length hpos hle
  rw [hlen] at hi
  unfold bitRange
  rw [bitOf_clampEnds _ _ (by omega), bitOf_slice hi]
  · congr 1
    apply decide_eq_decide.mpr
    omega
  · rw [List.length_take, List.length_drop]
    omega
  · rw [List.length_take, List.length_drop]
    omega

/-- Two strings have the same bit range exactly when they agree on it. -/
theorem bitRange_eq_iff (hpos : count ≠ 0) (hlen : bs.length = cs.length)
    (hle : start + count ≤ 8 * bs.length) :
    bitRange bs start count = bitRange cs start count ↔
      AgreeOn bitOf start (start + count) bs cs := by
  have hbl := bitRange_length hpos hle
  have hcl := @bitRange_length cs start count hpos (by omega)
  constructor
  · intro h i hlo hhi
    have hi : i - 8 * (start / 8) < 8 * (bitRange bs start count).length := by omega
    have hbit := bitOf_bitRange hpos hle hi
    rw [h, bitOf_bitRange hpos (by omega) (by omega),
      show 8 * (start / 8) + (i - 8 * (start / 8)) = i by omega,
      decide_eq_true (And.intro hlo hhi), Bool.and_true, Bool.and_true] at hbit
    exact hbit.symm
  · intro h
    refine bytes_ext (by omega) fun i hi => ?_
    rw [bitOf_bitRange hpos hle hi, bitOf_bitRange hpos (by omega) (by omega)]
    by_cases hr : start ≤ 8 * (start / 8) + i ∧ 8 * (start / 8) + i < start + count
    · rw [h _ hr.1 hr.2]
    · rw [decide_eq_false hr, Bool.and_false, Bool.and_false]

end Range

/-! ## Order -/

theorem bitOf_cons_low {b : UInt8} {i : Nat} (hi : i < 8) : bitOf (b :: bs) i = byteBit b i := by
  rw [bitOf_eq (by simp; omega)]
  simp [Nat.div_eq_of_lt hi, Nat.mod_eq_of_lt hi]

theorem bitOf_cons_high (b : UInt8) (bs : List UInt8) (i : Nat) :
    bitOf (b :: bs) (i + 8) = bitOf bs i := by
  simp [bitOf]

/-- Two bytes that agree before bit `n`, the second without the bit: it is the smaller one. -/
theorem byte_lt_of_bit {b c : UInt8} {n : Nat} (hn : n < 8)
    (hagree : ∀ i < n, byteBit b i = byteBit c i) (hb : byteBit b n = true)
    (hc : byteBit c n = false) : c < b := by
  rw [UInt8.lt_iff_toNat_lt]
  rw [byteBit_eq_testBit hn] at hb hc
  refine Nat.lt_of_testBit (7 - n) hc hb fun j hj => ?_
  by_cases hj8 : j < 8
  · have h := hagree (7 - j) (by omega)
    rw [byteBit_eq_testBit (by omega), byteBit_eq_testBit (by omega),
      show 7 - (7 - j) = j by omega] at h
    exact h.symm
  · rw [byte_testBit_high c (by omega), byte_testBit_high b (by omega)]

/-- In the lexicographic order of byte strings the first bit on which they differ decides. -/
theorem bitOf_mono {cs : List UInt8} {n : Nat} (hlen : bs.length = cs.length)
    (hagree : AgreeOn bitOf 0 n bs cs) (hlt : compare bs cs = .lt) (hbit : bitOf bs n = true) :
    bitOf cs n = true := by
  induction bs generalizing cs n with
  | nil => simp [bitOf] at hbit
  | cons b bs ih =>
    cases cs with
    | nil => cases hlen
    | cons c cs =>
      rw [List.compare_cons_cons, Ordering.then_eq_lt] at hlt
      by_cases hn : n < 8
      · have hbits (i : Nat) (hi : i < n) : byteBit b i = byteBit c i := by
          have h := hagree i (by omega) hi
          rwa [bitOf_cons_low (by omega), bitOf_cons_low (by omega)] at h
        rw [bitOf_cons_low hn] at hbit ⊢
        rcases hlt with hlt | ⟨heq, -⟩
        · by_contra hc
          have := byte_lt_of_bit hn hbits hbit (by simpa using hc)
          have := Std.compare_eq_lt.mp hlt
          grind
        · rw [← Std.LawfulEqCmp.eq_of_compare heq]
          exact hbit
      · obtain ⟨m, rfl⟩ : ∃ m, n = m + 8 := ⟨n - 8, by omega⟩
        have hbc : b = c := byte_ext fun j hj => by
          have h := hagree j (by omega) (by omega)
          rwa [bitOf_cons_low hj, bitOf_cons_low hj] at h
        subst hbc
        rw [bitOf_cons_high] at hbit ⊢
        refine ih (by simpa using hlen) (fun i _ hi => ?_) ?_ hbit
        · have h := hagree (i + 8) (by omega) (by omega)
          rwa [bitOf_cons_high, bitOf_cons_high] at h
        · rcases hlt with hlt | ⟨-, hlt⟩
          · simp at hlt
          · exact hlt

end Foks.Lib
