/-
  Big-endian strings of bytes as shift registers.

  `shiftLeft` and `shiftRight` move a string by one bit, byte by byte with a carry, and are twice
  and half of the number that the string stands for. `tail` is the number of the last two bytes.
-/
import Foks.Lib.Base256
import Mathlib.Data.Nat.Bitwise

namespace Foks.Lib

/-- One bit to the left, from the last byte on, and the bit that falls out. -/
def shiftLeft : List UInt8 → List UInt8 × UInt8
  | [] => ([], 0)
  | byte :: rest =>
    let (shifted, carry) := shiftLeft rest
    ((byte <<< 1 ||| carry) :: shifted, byte >>> 7)

/-- One bit to the right, from the first byte on. -/
def shiftRight (carry : UInt8) : List UInt8 → List UInt8
  | [] => []
  | byte :: rest => (byte >>> 1 ||| carry <<< 7) :: shiftRight (byte &&& 1) rest

section

variable (bytes : List UInt8)

@[simp] theorem length_shiftLeft : (shiftLeft bytes).1.length = bytes.length := by
  induction bytes with
  | nil => rfl
  | cons byte rest ih => simp [shiftLeft, ih]

@[simp] theorem length_shiftRight (carry : UInt8) (bytes : List UInt8) :
    (shiftRight carry bytes).length = bytes.length := by
  induction bytes generalizing carry with
  | nil => rfl
  | cons byte rest ih => simp [shiftRight, ih]

/-- Bits that do not overlap add up. -/
theorem or_eq_add {a b k : Nat} (h : b < 2 ^ k) : 2 ^ k * a ||| b = 2 ^ k * a + b :=
  (Nat.two_pow_add_eq_or_of_lt h a).symm

theorem toNat_shl_or {byte carry : UInt8} (h : carry.toNat ≤ 1) :
    (byte <<< 1 ||| carry).toNat = 2 * byte.toNat % 256 + carry.toNat := by
  have hbyte := byte.toNat_lt
  rw [UInt8.toNat_or, UInt8.toNat_shiftLeft]
  have hshift : byte.toNat <<< ((1 : UInt8).toNat % 8) % 2 ^ 8 = 2 ^ 1 * (byte.toNat % 128) := by
    show byte.toNat <<< 1 % 2 ^ 8 = _
    rw [Nat.shiftLeft_eq]
    omega
  rw [hshift, or_eq_add (by omega)]
  omega

theorem toNat_shr_seven (byte : UInt8) : (byte >>> 7).toNat = byte.toNat / 128 := by
  rw [UInt8.toNat_shiftRight]
  show byte.toNat >>> 7 = _
  rw [Nat.shiftRight_eq_div_pow]

theorem toNat_shr_or {byte carry : UInt8} (h : carry.toNat ≤ 1) :
    (byte >>> 1 ||| carry <<< 7).toNat = 128 * carry.toNat + byte.toNat / 2 := by
  have hbyte := byte.toNat_lt
  rw [UInt8.toNat_or, UInt8.toNat_shiftRight, UInt8.toNat_shiftLeft]
  show byte.toNat >>> 1 ||| carry.toNat <<< 7 % 2 ^ 8 = _
  have hshift : carry.toNat <<< 7 % 2 ^ 8 = 2 ^ 7 * carry.toNat := by
    rw [Nat.shiftLeft_eq]
    omega
  rw [Nat.shiftRight_eq_div_pow, hshift, Nat.or_comm, or_eq_add (by omega)]
  omega

theorem toNat_and_one (byte : UInt8) : (byte &&& 1).toNat = byte.toNat % 2 := by
  rw [UInt8.toNat_and]
  exact Nat.and_one_is_mod byte.toNat

theorem ofBE_shiftLeft :
    (shiftLeft bytes).2.toNat * 256 ^ bytes.length + ofBE (shiftLeft bytes).1 = 2 * ofBE bytes ∧
      (shiftLeft bytes).2.toNat ≤ 1 := by
  induction bytes with
  | nil => exact ⟨rfl, Nat.zero_le _⟩
  | cons byte rest ih =>
    obtain ⟨hvalue, hcarry⟩ := ih
    have hbyte := byte.toNat_lt
    rw [shiftLeft]
    dsimp only
    rw [toNat_shr_seven, ofBE_cons, ofBE_cons, toNat_shl_or hcarry, length_shiftLeft,
      List.length_cons, pow_succ]
    refine ⟨?_, by omega⟩
    generalize 256 ^ rest.length = power at *
    have hsplit : 2 * byte.toNat = byte.toNat / 128 * 256 + 2 * byte.toNat % 256 := by omega
    calc byte.toNat / 128 * (power * 256) + ((2 * byte.toNat % 256 + (shiftLeft rest).2.toNat) *
          power + ofBE (shiftLeft rest).1)
        = (byte.toNat / 128 * 256 + 2 * byte.toNat % 256) * power +
          ((shiftLeft rest).2.toNat * power + ofBE (shiftLeft rest).1) := by ring
      _ = 2 * (byte.toNat * power + ofBE rest) := by rw [← hsplit, hvalue]; ring

theorem ofBE_shiftRight {carry : UInt8} (h : carry.toNat ≤ 1) (bytes : List UInt8) :
    ofBE (shiftRight carry bytes) = (carry.toNat * 256 ^ bytes.length + ofBE bytes) / 2 := by
  induction bytes generalizing carry with
  | nil =>
    show 0 = (carry.toNat * 1 + 0) / 2
    omega
  | cons byte rest ih =>
    have hand := toNat_and_one byte
    rw [shiftRight, ofBE_cons, toNat_shr_or h, length_shiftRight, ih (by omega), hand, ofBE_cons,
      List.length_cons, pow_succ]
    generalize 256 ^ rest.length = power
    have hsplit : byte.toNat = byte.toNat / 2 * 2 + byte.toNat % 2 := by omega
    have htwice : carry.toNat * (power * 256) + (byte.toNat * power + ofBE rest) =
        2 * ((128 * carry.toNat + byte.toNat / 2) * power) +
          (byte.toNat % 2 * power + ofBE rest) := by
      nlinarith
    rw [htwice, Nat.mul_add_div (by omega)]

/-! ## The last two bytes -/

/-- `u16::from_be_bytes` of the last two bytes. -/
def tail : UInt16 :=
  (bytes.getD (bytes.length - 2) 0).toUInt16 <<< 8 |||
    (bytes.getD (bytes.length - 1) 0).toUInt16

/-- The last two bytes replaced by `to_be_bytes` of a number. -/
def setTail (value : UInt16) : List UInt8 :=
  (bytes.set (bytes.length - 2) (value >>> 8).toUInt8).set (bytes.length - 1) value.toUInt8

@[simp] theorem length_setTail (value : UInt16) : (setTail bytes value).length = bytes.length := by
  simp [setTail]

end

variable {bytes : List UInt8}

theorem exists_tail (h : 2 ≤ bytes.length) : ∃ front a b, bytes = front ++ [a, b] := by
  have hdrop : (bytes.drop (bytes.length - 2)).length = 2 := by
    rw [List.length_drop]
    omega
  obtain ⟨a, b, hlast⟩ := List.length_eq_two.mp hdrop
  exact ⟨bytes.take (bytes.length - 2), a, b, by rw [← hlast, List.take_append_drop]⟩

theorem ofBE_append_two (front : List UInt8) (a b : UInt8) :
    ofBE (front ++ [a, b]) = 65536 * ofBE front + (256 * a.toNat + b.toNat) := by
  have happend : front ++ [a, b] = (front ++ [a]) ++ [b] := by simp
  rw [happend, ofBE_concat, ofBE_concat]
  ring

theorem tail_append (front : List UInt8) (a b : UInt8) :
    (tail (front ++ [a, b])).toNat = 256 * a.toNat + b.toNat := by
  have ha := a.toNat_lt
  have hb := b.toNat_lt
  have hfirst : (front ++ [a, b]).getD ((front ++ [a, b]).length - 2) 0 = a := by simp
  have hlast : (front ++ [a, b]).getD ((front ++ [a, b]).length - 1) 0 = b := by simp
  rw [tail, hfirst, hlast, UInt16.toNat_or, UInt16.toNat_shiftLeft]
  show a.toNat <<< 8 % 2 ^ 16 ||| b.toNat = _
  have hshift : a.toNat <<< 8 % 2 ^ 16 = 2 ^ 8 * a.toNat := by
    rw [Nat.shiftLeft_eq]
    omega
  rw [hshift, or_eq_add (by omega)]
  omega

theorem setTail_append (front : List UInt8) (a b : UInt8) (value : UInt16) :
    setTail (front ++ [a, b]) value = front ++ [(value >>> 8).toUInt8, value.toUInt8] := by
  simp [setTail]

theorem toNat_tail (h : 2 ≤ bytes.length) : (tail bytes).toNat = ofBE bytes % 65536 := by
  obtain ⟨front, a, b, rfl⟩ := exists_tail h
  have ha := a.toNat_lt
  have hb := b.toNat_lt
  rw [tail_append, ofBE_append_two]
  omega

theorem ofBE_setTail (h : 2 ≤ bytes.length) (value : UInt16) :
    ofBE (setTail bytes value) = ofBE bytes / 65536 * 65536 + value.toNat := by
  obtain ⟨front, a, b, rfl⟩ := exists_tail h
  have ha := a.toNat_lt
  have hb := b.toNat_lt
  have hvalue := value.toNat_lt
  rw [setTail_append, ofBE_append_two, ofBE_append_two]
  have hhigh : ((value >>> 8).toUInt8).toNat = value.toNat / 256 := by
    rw [UInt16.toNat_toUInt8, UInt16.toNat_shiftRight]
    show value.toNat >>> 8 % 2 ^ 8 = _
    rw [Nat.shiftRight_eq_div_pow]
    omega
  have hlow : (value.toUInt8).toNat = value.toNat % 256 := by
    rw [UInt16.toNat_toUInt8]
  rw [hhigh, hlow]
  omega

end Foks.Lib
