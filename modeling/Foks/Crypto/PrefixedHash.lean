/-
  Typed hashes of Snowpack objects (`foks-crypto`, `primitives.rs`).

  The hash itself, SHA-512/256, is a parameter `digest`: the development never looks inside it.
  An object is hashed behind the eight bytes of its type id. `prefixedHashSignable` first asks
  the stricter decoder whether the bytes are a canonical signable object.
-/
import Foks.Snowpack.Canonical

namespace Foks.Crypto

open Foks.Lib Foks.Snowpack

/-- A 32-byte hash, and a key or a leaf of the Merkle tree. -/
abbrev Hash := FixedBytes 32

/-- Maps and sets of hashes are ordered by their bytes. -/
instance hashTransOrd : Std.TransOrd Hash := inferInstance

instance hashLawfulEqOrd : Std.LawfulEqOrd Hash := inferInstance

/-- The hash function over byte strings. -/
abbrev Digest := List UInt8 → Hash

/-- The string that is hashed for an object of a type. -/
def hashInput (typeId : UInt64) (object : List UInt8) : List UInt8 :=
  toBE 8 typeId.toNat ++ object

def prefixedHash (digest : Digest) (typeId : UInt64) (object : List UInt8) : Hash :=
  digest (hashInput typeId object)

def prefixedHashSignable (digest : Digest) (typeId : UInt64) (canonicalObject : List UInt8) :
    Except Snowpack.Error Hash := do
  validateSignable canonicalObject
  .ok (prefixedHash digest typeId canonicalObject)

theorem prefixedHashSignable_wire (digest : Digest) (typeId : UInt64) {v : Value}
    (hcod : Codable v) (hsig : Signable v) :
    prefixedHashSignable digest typeId (wire v) = .ok (prefixedHash digest typeId (wire v)) := by
  rw [prefixedHashSignable, validateSignable_eq_ok_iff.mpr ⟨v, hcod, hsig, rfl⟩]
  rfl

variable {digest : Digest}

theorem prefixedHashSignable_eq_ok {typeId : UInt64} {object : List UInt8} {h : Hash}
    (hok : prefixedHashSignable digest typeId object = .ok h) :
    h = prefixedHash digest typeId object := by
  obtain ⟨-, -, hok⟩ := bind_eq_ok.mp hok
  cases hok
  rfl

/-- Objects of different types, or different objects of one type, are different hash inputs. -/
theorem hashInput_inj {t t' : UInt64} {a b : List UInt8}
    (h : hashInput t a = hashInput t' b) : a = b :=
  (List.append_inj h (by simp)).2

/-- No two of the strings have the same hash. -/
def CollisionFree (digest : Digest) (inputs : List (List UInt8)) : Prop :=
  ∀ a ∈ inputs, ∀ b ∈ inputs, digest a = digest b → a = b

instance (digest : Digest) (inputs : List (List UInt8)) : Decidable (CollisionFree digest inputs) :=
  inferInstanceAs (Decidable (∀ a ∈ inputs, ∀ b ∈ inputs, digest a = digest b → a = b))

theorem CollisionFree.mono {inputs others : List (List UInt8)} (h : CollisionFree digest inputs)
    (hsub : others ⊆ inputs) : CollisionFree digest others :=
  fun a ha b hb => h a (hsub ha) b (hsub hb)

/-- Strings that are there already add no collision. -/
theorem CollisionFree.append {inputs others : List (List UInt8)} (h : CollisionFree digest inputs)
    (hsub : others ⊆ inputs) : CollisionFree digest (inputs ++ others) :=
  h.mono (List.append_subset.mpr ⟨List.Subset.refl _, hsub⟩)

theorem CollisionFree.object_eq {inputs : List (List UInt8)} (h : CollisionFree digest inputs)
    {typeId : UInt64} {a b : List UInt8} (ha : hashInput typeId a ∈ inputs)
    (hb : hashInput typeId b ∈ inputs)
    (heq : prefixedHash digest typeId a = prefixedHash digest typeId b) : a = b :=
  hashInput_inj (h _ ha _ hb heq)

end Foks.Crypto
