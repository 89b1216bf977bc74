/-
  Bytes: big-endian numbers and byte arrays of a fixed length.

  `toBE w v` writes `v` in `w` bytes, most significant first, dropping what does not fit;
  `ofBE` reads a byte string back. On `w`-byte strings the two are inverse.
  `FixedBytes n` is a byte string that carries the proof of its length.
-/
import Mathlib.Tactic

namespace Foks.Lib

/-- A property of bytes holds of all of them when it holds of the 256 of them. -/
theorem forall_byte {P : UInt8 → Prop} (h : ∀ n : Fin 256, P (UInt8.ofNat n)) (b : UInt8) :
    P b := by
  have hb := h ⟨b.toNat, b.toNat_lt⟩
  rwa [UInt8.ofNat_toNat] at hb

theorem toNat_ofNat64 {n : Nat} (h : n < 2 ^ 64) : (UInt64.ofNat n).toNat = n :=
  UInt64.toNat_ofNat_of_lt' h

/-- The `w` low bytes of `v`, most significant first. -/
def toBE : Nat → Nat → List UInt8
  | 0, _ => []
  | w + 1, v => toBE w (v / 256) ++ [UInt8.ofNat v]

section

variable (bs : List UInt8)

/-- The number a byte string stands for, most significant byte first. -/
def ofBE : Nat := bs.foldl (fun acc b => acc * 256 + b.toNat) 0

@[simp] theorem toBE_length (w v : Nat) : (toBE w v).length = w := by
  induction w generalizing v with
  | zero => rfl
  | succ w ih => simp [toBE, ih]

theorem ofBE_nil : ofBE [] = 0 := rfl

theorem ofBE_concat (b : UInt8) : ofBE (bs ++ [b]) = ofBE bs * 256 + b.toNat := by
  simp [ofBE]

theorem ofBE_lt : ofBE bs < 256 ^ bs.length := by
  induction bs using List.reverseRecOn with
  | nil => simp [ofBE_nil]
  | append_singleton bs b ih =>
    rw [ofBE_concat, List.length_append, List.length_singleton, Nat.pow_succ]
    have := b.toNat_lt
    omega

theorem ofBE_toBE (w v : Nat) (h : v < 256 ^ w) : ofBE (toBE w v) = v := by
  induction w generalizing v with
  | zero => simp_all [toBE, ofBE_nil]
  | succ w ih =>
    rw [Nat.pow_succ] at h
    rw [toBE, ofBE_concat, ih _ (by omega), UInt8.toNat_ofNat']
    omega

theorem toBE_ofBE : toBE bs.length (ofBE bs) = bs := by
  induction bs using List.reverseRecOn with
  | nil => rfl
  | append_singleton bs b ih =>
    have hb := b.toNat_lt
    have hdiv : (ofBE bs * 256 + b.toNat) / 256 = ofBE bs := by omega
    have hlow : UInt8.ofNat (ofBE bs * 256 + b.toNat) = b := by
      apply UInt8.toNat_inj.mp
      rw [UInt8.toNat_ofNat']
      omega
    rw [List.length_append, List.length_singleton, toBE, ofBE_concat, hdiv, ih, hlow]

/-- Writing is injective on numbers that fit. -/
theorem toBE_inj {w v v' : Nat} (h : v < 256 ^ w) (h' : v' < 256 ^ w)
    (heq : toBE w v = toBE w v') : v = v' := by
  rw [← ofBE_toBE w v h, ← ofBE_toBE w v' h', heq]

/-! ## Two's complement -/

/-- The `w` low bytes of the two's complement of `v`. -/
def signedToBE (w : Nat) (v : Int) : List UInt8 := toBE w (v % 256 ^ w).toNat

/-- A byte string read as a two's complement number. -/
def signedOfBE : Int := Int.bmod (ofBE bs) (256 ^ bs.length)

@[simp] theorem signedToBE_length (w : Nat) (v : Int) : (signedToBE w v).length = w :=
  toBE_length w _

theorem signedOfBE_signedToBE (w : Nat) (v : Int) (hlo : -(256 ^ w : Nat) ≤ 2 * v)
    (hhi : 2 * v < (256 ^ w : Nat)) : signedOfBE (signedToBE w v) = v := by
  have hpos : (0 : Int) < 256 ^ w := by positivity
  have hnn : 0 ≤ v % 256 ^ w := Int.emod_nonneg v hpos.ne'
  have hlt : (v % 256 ^ w).toNat < 256 ^ w := by
    have := Int.emod_lt_of_pos v hpos
    zify
    rw [Int.toNat_of_nonneg hnn]
    exact_mod_cast this
  unfold signedOfBE
  rw [signedToBE_length, signedToBE, ofBE_toBE w _ hlt, Int.toNat_of_nonneg hnn]
  have hcast : ((256 : Int) ^ w) = ((256 ^ w : Nat) : Int) := by push_cast; rfl
  rw [hcast, Int.emod_bmod]
  exact Int.bmod_eq_of_le_mul_two (by omega) (by omega)

theorem signedToBE_signedOfBE : signedToBE bs.length (signedOfBE bs) = bs := by
  have hcast : ((256 : Int) ^ bs.length) = ((256 ^ bs.length : Nat) : Int) := by push_cast; rfl
  have hmod : signedOfBE bs % 256 ^ bs.length = (ofBE bs : Int) := by
    rw [signedOfBE, hcast, Int.bmod_emod]
    exact_mod_cast Nat.mod_eq_of_lt (ofBE_lt bs)
  rw [signedToBE, hmod, Int.toNat_natCast, toBE_ofBE]

theorem signedOfBE_bounds :
    -(256 ^ bs.length : Nat) ≤ 2 * signedOfBE bs ∧ 2 * signedOfBE bs < (256 ^ bs.length : Nat) := by
  have hpos : 0 < 256 ^ bs.length := by positivity
  have hlo := Int.le_bmod (x := (ofBE bs : Int)) hpos
  have hhi := Int.bmod_lt (x := (ofBE bs : Int)) hpos
  unfold signedOfBE
  omega

end

/-! ## Byte arrays of a fixed length -/

/-- A byte array `[u8; n]`. -/
@[ext] structure FixedBytes (n : Nat) where
  bytes : List UInt8
  size_eq : bytes.length = n
  deriving DecidableEq, Repr

namespace FixedBytes

variable {n : Nat}

/-- `try_into` from a slice: the slice must have exactly `n` bytes. -/
def ofBytes? (n : Nat) (bs : List UInt8) : Option (FixedBytes n) :=
  if h : bs.length = n then some ⟨bs, h⟩ else none

theorem ofBytes?_eq_some {bs : List UInt8} {a : FixedBytes n} :
    ofBytes? n bs = some a ↔ bs = a.bytes := by
  unfold ofBytes?
  constructor
  · intro h
    split at h
    · cases h
      rfl
    · cases h
  · rintro rfl
    rw [dif_pos a.size_eq]

@[simp] theorem ofBytes?_bytes (a : FixedBytes n) : ofBytes? n a.bytes = some a :=
  ofBytes?_eq_some.mpr rfl

/-- The array of `n` copies of one byte. -/
def replicate (n : Nat) (b : UInt8) : FixedBytes n := ⟨List.replicate n b, by simp⟩

/-- Arrays compare as their bytes do, lexicographically. -/
instance : Ord (FixedBytes n) := ⟨fun a b => compare a.bytes b.bytes⟩

theorem compare_def (a b : FixedBytes n) : compare a b = compare a.bytes b.bytes := rfl

private abbrev compareBytes : List UInt8 → List UInt8 → Ordering := compare

instance : Std.TransOrd (FixedBytes n) where
  eq_swap := fun {a b} => @Std.OrientedCmp.eq_swap _ compareBytes _ a.bytes b.bytes
  isLE_trans := fun {a b c} =>
    @Std.TransCmp.isLE_trans _ compareBytes _ a.bytes b.bytes c.bytes

instance : Std.LawfulEqOrd (FixedBytes n) where
  eq_of_compare := fun {a b} h =>
    FixedBytes.ext (@Std.LawfulEqCmp.eq_of_compare _ compareBytes _ a.bytes b.bytes h)

end FixedBytes

end Foks.Lib
