/-
  Errors of the verifier, and its typed hash (`foks-verify`, `error.rs` and `lib.rs`).
-/
import Foks.Crypto.Signatures
import Foks.Proto.Identity

namespace Foks.Verify

open Foks.Lib Foks.Snowpack Foks.Crypto

inductive UserTransitionRule where
  | multipleMemberChanges
  | unknownSigner
  | sharedKeyRotation
  | provisioning
  | revocation
  | lastOwner
  | standaloneChange
  deriving DecidableEq

inductive Error where
  | protocol (error : Proto.Error)
  | crypto (error : Snowpack.Error)
  | signature (error : Crypto.Error)
  | snowpack (error : Snowpack.Error)
  | emptyHostchain
  | sequence (expected received : UInt64)
  | genesisHasPrevious
  | missingPrevious
  | previousMismatch
  | hostChanged
  | genesisSigner
  | signatureCount (signatures keys : Nat)
  | inactiveHostSigner
  | invalidCertificate
  | certificateKeyMismatch
  | missingDelegatedKey (label : String)
  | delegatedSignature (label : String)
  | merkleHostchainMismatch
  | invalidProbeAddress
  | userBinding
  | userSignatureCount (signatures : Nat)
  | missingHepk
  | userMerkleProof
  | merkleRollback (stored received : UInt64)
  | merkleFork (epoch : UInt64)
  | merkleHistoryShape
  | merkleBackPointer
  | persistedMerkleEvidence
  | userTransition (seqno : UInt64) (rule : UserTransitionRule)
  | teamBinding
  | teamSigner
  | teamSignatureStack
  | teamKeySchedule
  | teamRoster
  deriving DecidableEq

/-- A protocol decoder's or encoder's result, with the verifier's error. -/
def protocol {α : Type} (x : Except Proto.Error α) : Except Error α := x.mapError .protocol

/-- `encode`, with the verifier's error. -/
def encoded (v : Value) : Except Error (List UInt8) := (encode v).mapError .snowpack

def prefixedHash (digest : Digest) (typeId : UInt64) (canonicalObject : List UInt8) :
    Except Error Hash :=
  (prefixedHashSignable digest typeId canonicalObject).mapError .crypto

/-- `verify_typed`, with the verifier's error. -/
def verifySignature (digest : Digest) (scheme : SignatureScheme) (signer : Proto.EntityId)
    (signature : Proto.Signature) (typeId : UInt64) (canonicalObject : List UInt8) :
    Except Error Unit :=
  (verifyTyped digest scheme signer signature typeId canonicalObject).mapError .signature

/-- `u64::checked_add`. -/
def checkedAddU64 (a b : UInt64) : Option UInt64 :=
  if a.toNat + b.toNat < 2 ^ 64 then some (a + b) else none

theorem checkedAddU64_eq_some {a b c : UInt64} :
    checkedAddU64 a b = some c ↔ c.toNat = a.toNat + b.toNat := by
  unfold checkedAddU64
  constructor
  · intro h
    split at h
    · cases h
      rw [UInt64.toNat_add]
      omega
    · cases h
  · intro h
    have hc := c.toNat_lt
    rw [if_pos (by omega), Option.some.injEq, ← UInt64.toNat_inj, UInt64.toNat_add]
    omega

theorem protocol_eq_ok {α : Type} {x : Except Proto.Error α} {a : α} :
    protocol x = .ok a ↔ x = .ok a := mapError_eq_ok

/-- Hashing the bytes of a value: it must be codable and signable. -/
theorem prefixedHash_eq_ok {digest : Digest} {typeId : UInt64} {v : Value} {bs : List UInt8}
    {h : Hash} (henc : encode v = .ok bs) :
    prefixedHash digest typeId bs = .ok h ↔
      Codable v ∧ Signable v ∧ h = Crypto.prefixedHash digest typeId (wire v) := by
  obtain ⟨-, rfl⟩ := encode_eq_ok henc
  rw [prefixedHash, mapError_eq_ok]
  constructor
  · intro hok
    obtain ⟨_, hvalid, -⟩ := bind_eq_ok.mp hok
    obtain ⟨w, hcod, hsig, hwire⟩ := validateSignable_eq_ok_iff.mp hvalid
    have hw := hcod.encode_eq
    rw [← hwire] at hw
    obtain rfl := encode_inj henc hw
    exact ⟨hcod, hsig, prefixedHashSignable_eq_ok hok⟩
  · rintro ⟨hcod, hsig, rfl⟩
    exact prefixedHashSignable_wire digest typeId hcod hsig

end Foks.Verify
