/-
  The verifier's bit helpers agree with the store's.

  The two crates carry their own copies of the masking code. On 32-byte keys both cut the same
  bytes out of a key (`copyAndClamp_eq_some`), and on the prefix of a stored node the verifier's
  masked comparison is agreement on the bits (`prefixMatches_clamp_iff`).
-/
import Foks.Merkle.Layout
import Foks.Verify.Path

namespace Foks.Verify

open Foks.Lib Foks.Snowpack Foks.Crypto
open MerkleStore (clamp)

theorem bitAt_eq_some {key : Hash} {bit : Nat} {b : Bool} :
    bitAt key.bytes bit = some b ↔ bit < 256 ∧ MerkleStore.bitAt key bit = b := by
  have hlen := key.size_eq
  unfold bitAt MerkleStore.bitAt bitOf
  by_cases h : bit < 256
  · rw [List.getElem?_eq_getElem (by omega)]
    simp [h]
  · rw [List.getElem?_eq_none (by omega)]
    simp [h]

theorem bitAt_of_lt {key : Hash} {bit : Nat} (h : bit < 256) :
    bitAt key.bytes bit = some (MerkleStore.bitAt key bit) := bitAt_eq_some.mpr ⟨h, rfl⟩

theorem getRange_eq_some {bytes slice : List UInt8} {first last : Nat} :
    getRange bytes first last = some slice ↔ first ≤ last + 1 ∧ last < bytes.length ∧
      slice = (bytes.drop first).take (last + 1 - first) := by
  unfold getRange
  rw [Option.ite_none_right_eq_some, Option.some.injEq, and_assoc]
  constructor <;> rintro ⟨h₁, h₂, h₃⟩ <;> exact ⟨h₁, h₂, h₃.symm⟩

/-- Inside a key both copies of `copy_and_clamp` return the same bytes. -/
theorem copyAndClamp_eq_some {key : Hash} {start count : Nat} (h : start + count ≤ 256) :
    copyAndClamp key.bytes start count = some (clamp key start count) := by
  have hlen := key.size_eq
  unfold copyAndClamp clamp
  by_cases hc : count = 0
  · rw [if_pos hc, if_pos hc]
  · have hrange : getRange key.bytes (start / 8) ((start + count - 1) / 8) =
        some ((key.bytes.drop (start / 8)).take
          ((start + count - 1) / 8 - start / 8 + 1)) := by
      refine getRange_eq_some.mpr ⟨by omega, by omega, ?_⟩
      congr 1
      omega
    rw [if_neg hc, if_neg hc, checkedAdd_eq_some (by omega)]
    simp only [Option.bind_eq_bind, Option.bind_some, hrange]
    rfl

theorem bitsEqual_iff {a b : Hash} {count : Nat} (h : count ≤ 256) :
    bitsEqual a.bytes b.bytes count = true ↔ AgreeOn MerkleStore.bitAt 0 count a b := by
  unfold bitsEqual AgreeOn
  simp only [List.all_eq_true, List.mem_range, beq_iff_eq]
  refine forall_congr' fun i => ⟨fun heq _ hi => ?_, fun heq hi => ?_⟩
  · have hbits := heq hi
    rwa [bitAt_of_lt (by omega), bitAt_of_lt (by omega), Option.some.injEq] at hbits
  · rw [bitAt_of_lt (by omega), bitAt_of_lt (by omega), heq (by omega) hi]

/-! ## The masked comparison -/

/-- A byte of the mask keeps the bits that lie in the range. -/
theorem byteBit_rangeMask {start endBit index length j : Nat} (hj : j < 8)
    (hindex : index < length) (hlen : length = endBit / 8 - start / 8 + 1) (hle : start ≤ endBit) :
    byteBit (rangeMask start endBit index length) j =
      decide (start ≤ 8 * (start / 8 + index) + j ∧ 8 * (start / 8 + index) + j ≤ endBit) := by
  have hall (j : Nat) (hj : j < 8) : byteBit 0xff j = true := by
    revert j
    decide
  unfold rangeMask
  simp only
  split <;> split <;>
    simp only [byteBit_and, byteBit_highMask, byteBit_lowMask, hall, hj, Nat.mod_lt,
      Nat.zero_lt_succ, Bool.true_and, ← Bool.decide_and] <;>
    first | (apply decide_eq_decide.mpr; omega) | (symm; apply decide_eq_true; omega)

theorem masked_eq_zero_iff {x y m : UInt8} :
    (x ^^^ y) &&& m = 0 ↔ ∀ j < 8, byteBit m j = true → byteBit x j = byteBit y j := by
  constructor
  · intro h j hj hm
    have hbit := congrArg (byteBit · j) h
    simp only [byteBit_and hj, byteBit_xor hj, hm, byteBit_zero, Bool.and_true] at hbit
    simpa using hbit
  · intro h
    refine byte_ext fun j hj => ?_
    rw [byteBit_and hj, byteBit_xor hj, byteBit_zero]
    cases hm : byteBit m j with
    | false => simp
    | true => simp [h j hj hm]

/-- The masked comparison of two slices of the same range, bit by bit. -/
theorem zip_masked_iff {xs ys : List UInt8} {start endBit : Nat} (hlen : ys.length = xs.length)
    (hxs : xs.length = endBit / 8 - start / 8 + 1) (hle : start ≤ endBit) :
    ((xs.zip ys).zipIdx.all fun ((left, right), index) =>
        (left ^^^ right) &&& rangeMask start endBit index xs.length == 0) = true ↔
      ∀ i < 8 * xs.length, start ≤ 8 * (start / 8) + i → 8 * (start / 8) + i ≤ endBit →
        bitOf xs i = bitOf ys i := by
  simp only [List.all_eq_true, Prod.forall, List.mem_zipIdx_iff_getElem?,
    List.getElem?_zip_eq_some, beq_iff_eq, masked_eq_zero_iff]
  constructor
  · intro h i hi hlo hhi
    have hk : i / 8 < xs.length := by omega
    rw [bitOf_eq hk, bitOf_eq (by omega)]
    refine h _ _ (i / 8) ⟨List.getElem?_eq_getElem hk, List.getElem?_eq_getElem (by omega)⟩
      (i % 8) (Nat.mod_lt _ (by omega)) ?_
    rw [byteBit_rangeMask (Nat.mod_lt _ (by omega)) hk hxs hle]
    exact decide_eq_true (by omega)
  · rintro h x y k ⟨hx, hy⟩ j hj hm
    obtain ⟨hk, rfl⟩ := List.getElem?_eq_some_iff.mp hx
    obtain ⟨hk', rfl⟩ := List.getElem?_eq_some_iff.mp hy
    rw [byteBit_rangeMask hj hk hxs hle] at hm
    have hr := of_decide_eq_true hm
    have hbit := h (8 * k + j) (by omega) (by omega) (by omega)
    rw [bitOf_eq (by omega), bitOf_eq (by omega)] at hbit
    simpa only [show (8 * k + j) / 8 = k by omega, show (8 * k + j) % 8 = j by omega] using hbit

/-- Against the prefix of a stored node the verifier compares exactly the skipped bits. -/
theorem prefixMatches_clamp_iff {key sample : Hash} {start count : Nat} (h : start + count ≤ 256) :
    prefixMatches key.bytes (clamp sample start count) start count = true ↔
      AgreeOn MerkleStore.bitAt start (start + count) sample key := by
  have hkey := key.size_eq
  have hsample := sample.size_eq
  unfold prefixMatches clamp
  by_cases hc : count = 0
  · subst hc
    simp only [if_true, true_iff]
    intro i hlo hhi
    omega
  · have hrange : getRange key.bytes (start / 8) ((start + count - 1) / 8) =
        some ((key.bytes.drop (start / 8)).take
          ((start + count - 1) / 8 + 1 - start / 8)) :=
      getRange_eq_some.mpr ⟨by omega, by omega, rfl⟩
    have hlen := @bitRange_length sample.bytes start count hc (by omega)
    have hslice : ((key.bytes.drop (start / 8)).take
        ((start + count - 1) / 8 + 1 - start / 8)).length =
          (start + count - 1) / 8 - start / 8 + 1 := by
      rw [List.length_take, List.length_drop]
      omega
    rw [if_neg hc, if_neg hc, checkedAdd_eq_some (by omega)]
    simp only [hrange]
    rw [if_neg (by omega), zip_masked_iff (by omega) hslice (by omega)]
    constructor
    · intro heq i hlo hhi
      have hbit := heq (i - 8 * (start / 8)) (by omega) (by omega) (by omega)
      rw [bitOf_slice (by omega), bitOf_bitRange hc (by omega) (by omega),
        show 8 * (start / 8) + (i - 8 * (start / 8)) = i by omega,
        decide_eq_true (And.intro hlo hhi), Bool.and_true] at hbit
      exact hbit.symm
    · intro hagree i hi hlo hhi
      rw [bitOf_slice (by omega), bitOf_bitRange hc (by omega) (by omega),
        decide_eq_true (by omega), Bool.and_true]
      exact (hagree _ hlo (by omega)).symm

end Foks.Verify
