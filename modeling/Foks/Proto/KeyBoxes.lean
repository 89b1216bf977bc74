/-
  Key-distribution boxes (`foks-proto`, `key_material.rs`, with the secret box of `kv.rs` and the
  remote view tokens of `federation.rs`).

  A parcel carries one generation of a role's key to one target. The ciphertexts are opaque here;
  what counts is whom a parcel is for.
-/
import Foks.Proto.Identity

namespace Foks.Proto

open Foks.Lib Foks.Snowpack

structure HybridBox where
  kemCiphertext : List UInt8
  dhType : UInt64
  senderDh : Option DhPublicKey
  nonce : FixedBytes 16
  ciphertext : List UInt8
  deriving DecidableEq

structure SecretBox where
  nonce : FixedBytes 16
  ciphertext : List UInt8
  deriving DecidableEq

structure TempDhKeySigned where
  key : DhPublicKey
  time : UInt64
  signature : Signature
  deriving DecidableEq

structure SeedChainBox where
  generation : UInt64
  role : Role
  secretBox : SecretBox
  deriving DecidableEq

structure PukParcel where
  generation : UInt64
  role : Role
  hybrid : HybridBox
  target : EntityId
  targetHost : Option EntityId
  targetRole : Role
  targetGeneration : UInt64
  sender : EntityId
  boxId : FixedBytes 16
  tempDhKey : Option TempDhKeySigned
  seedChain : List SeedChainBox
  deriving DecidableEq

structure FqParty where
  party : EntityId
  host : EntityId
  deriving DecidableEq

structure TeamRemoteMemberViewTokenInner where
  member : FqParty
  ptkGeneration : UInt64
  secretBox : SecretBox
  ptkRole : Role
  deriving DecidableEq

/-! ## Readers -/

def secretBox (value : Value) : Except Error SecretBox := do
  let fields ← array value 2
  expectUnsigned (fields.getD 0 .null) "secret-box type" 0
  let body ← variant (fields.getD 1 .null) [0x30]
  let nacl ← array body 2
  let nonce ← fixedBlob 16 (nacl.getD 0 .null) "secret-box nonce"
  let ciphertext ← binary (nacl.getD 1 .null)
  .ok ⟨nonce, ciphertext⟩

end Foks.Proto
