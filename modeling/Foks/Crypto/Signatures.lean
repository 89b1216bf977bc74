/-
  Typed signatures and commitments (`foks-crypto`, `signatures.rs` and `primitives.rs`).

  The signature schemes themselves are parameters, like the hash. A signature covers the type id
  and the canonical bytes of the object. A commitment is the HMAC of the same string under a
  random key; it is built from the hash, so opening it in two ways is a collision of the hash
  (`commitment_inj`).
-/
import Foks.Crypto.PrefixedHash
import Foks.Proto.Entity

namespace Foks.Crypto

open Foks.Lib Foks.Snowpack Foks.Proto

/-- The errors of signature verification and of the chunks of files. -/
inductive Error where
  | protocol (error : Proto.Error)
  | snowpack (error : Snowpack.Error)
  | signatureType
  | publicKey
  | verification
  | decryption
  | kvEncryption
  | kvPadding
  | kvBinding
  deriving DecidableEq

/-- The two signature schemes: reading a public key, and checking a signature under it. -/
structure SignatureScheme where
  ed25519PublicKey : FixedBytes 32 → Bool
  ed25519Verify : FixedBytes 32 → List UInt8 → FixedBytes 64 → Bool
  p256PublicKey : FixedBytes 33 → Bool
  /-- Reads the DER signature and checks it against the digest of the message. -/
  p256VerifyPrehash : FixedBytes 33 → Hash → List UInt8 → Bool

def verifyTyped (digest : Digest) (scheme : SignatureScheme) (signer : EntityId)
    (signature : Signature) (typeId : UInt64) (canonicalObject : List UInt8) :
    Except Error Unit := do
  (validateSignable canonicalObject).mapError .snowpack
  let message := hashInput typeId canonicalObject
  match signature with
  | .ed25519 signature =>
    if signer.entityType ≠ entityYubi then do
      let key ← signer.ed25519Key.mapError .protocol
      if ¬ scheme.ed25519PublicKey key then .error .publicKey
      else if ¬ scheme.ed25519Verify key message signature then .error .verification
      else .ok ()
    else .error .signatureType
  | .ecdsa signature =>
    if signer.entityType = entityYubi then do
      let key ← signer.p256Key.mapError .protocol
      if ¬ scheme.p256PublicKey key then .error .publicKey
      else if ¬ scheme.p256VerifyPrehash key (digest message) signature then .error .verification
      else .ok ()
    else .error .signatureType

/-- A signature over a blob: its canonical bytes are signed as one binary value. -/
def verifyBlob (digest : Digest) (scheme : SignatureScheme) (signer : EntityId)
    (signature : Signature) (blobTypeId : UInt64) (inner : List UInt8) : Except Error Unit := do
  (validateSignable inner).mapError .snowpack
  let encodedBlob ← (encode (.binary inner)).mapError .snowpack
  verifyTyped digest scheme signer signature blobTypeId encodedBlob

/-! ## Commitments -/

/-- The block length of SHA-512/256. -/
def hmacBlock : Nat := 128

/-- The key of one block: a long key is hashed first. -/
def hmacKey (digest : Digest) (key : List UInt8) : List UInt8 :=
  let key := if key.length > hmacBlock then (digest key).bytes else key
  key ++ List.replicate (hmacBlock - key.length) 0

def hmacInner (digest : Digest) (key message : List UInt8) : List UInt8 :=
  (hmacKey digest key).map (· ^^^ 0x36) ++ message

def hmacOuter (digest : Digest) (key message : List UInt8) : List UInt8 :=
  (hmacKey digest key).map (· ^^^ 0x5c) ++ (digest (hmacInner digest key message)).bytes

def hmac (digest : Digest) (key message : List UInt8) : Hash :=
  digest (hmacOuter digest key message)

def commitment (digest : Digest) (typeId : UInt64) (canonicalObject key : List UInt8) : Hash :=
  hmac digest key (hashInput typeId canonicalObject)

end Foks.Crypto
