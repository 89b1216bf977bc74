/-
  Verification of the host chain (`foks-verify`, `host.rs`).

  The links of a host chain add and revoke the keys of the host and of its delegates. Delegates may
  come back after they were revoked, a host key may not. The parser of X.509 certificates is a
  parameter.
-/
import Foks.Proto.Host
import Foks.Proto.MerkleRoot
import Foks.Verify.Basic

namespace Foks.Verify

open Std (ExtTreeMap)
open Foks.Lib Foks.Crypto Foks.Proto

def ed25519Oid : String := "1.3.101.112"

/-- What is read of a certificate: the algorithm of its key, and the key. -/
structure Certificate where
  algorithm : String
  subjectPublicKey : List UInt8

/-- Reads a certificate off the front of a string, and gives the rest. -/
abbrev CertificateParser := List UInt8 → Option (List UInt8 × Certificate)

/-! ## State -/

structure HostchainState where
  seqno : UInt64
  host : Option EntityId
  time : UInt64
  tail : Hash
  keys : ExtTreeMap UInt8 (List EntityId) compare
  revoked : List EntityId
  tlsCas : List (EntityId × List UInt8)

namespace HostchainState

/-- `HostchainState::default`. -/
def start : HostchainState := ⟨0, none, 0, .replicate 32 0, ∅, [], []⟩

section

variable (s : HostchainState)

/-- The keys of a kind, in the order they were added. -/
def keysOf (entityType : UInt8) : List EntityId :=
  s.keys[entityType]?.getD []

def activeKeys (entityType : UInt8) : List EntityId :=
  (s.keysOf entityType).filter fun key => key ∉ s.revoked

/-- Delegates may be restored after a revocation. A revoked host key stays revoked. -/
def addKey (key : EntityId) : HostchainState :=
  { s with
    revoked := if key.entityType ≠ entityHost then s.revoked.filter (· ≠ key) else s.revoked
    keys := s.keys.insert key.entityType (s.keysOf key.entityType ++ [key]) }

def revoke (key : EntityId) : HostchainState :=
  { s with
    keys := match s.keys[key.entityType]? with
      | some keys => s.keys.insert key.entityType (keys.filter (· ≠ key))
      | none => s.keys
    revoked := key :: s.revoked
    tlsCas := s.tlsCas.filter (·.1 ≠ key) }

def addTlsCa (key : EntityId) (certificate : List UInt8) : HostchainState :=
  let s := s.addKey key
  { s with tlsCas := s.tlsCas.filter (·.1 ≠ key) ++ [(key, certificate)] }

/-- What an item of a change does. -/
def apply : HostchainChangeItem → HostchainState
  | .revoke key => s.revoke key
  | .key key => s.addKey key
  | .tlsCa id certificate => s.addTlsCa id certificate

end

end HostchainState

/-! ## Links -/

def verifyTlsCa (parser : CertificateParser) (id : EntityId) (certificate : List UInt8) :
    Except Error Unit := do
  let (remaining, certificate) ← okOr .invalidCertificate (parser certificate)
  if ¬ remaining.isEmpty then .error .invalidCertificate
  else if certificate.algorithm ≠ ed25519Oid ∨ certificate.subjectPublicKey ≠ id.bytes.tail then
    .error .certificateKeyMismatch
  else .ok ()

/-- What an item must pass, and the key it adds. -/
def verifyItem (parser : CertificateParser) :
    HostchainChangeItem → Except Error (Option EntityId)
  | .revoke _ => .ok none
  | .key key => do
    let _ ← protocol key.ed25519Key
    .ok (some key)
  | .tlsCa id certificate => do
    verifyTlsCa parser id certificate
    .ok (some id)

/-- The loop over the items of a change: the state and the keys that are added. -/
def itemLoop (parser : CertificateParser) :
    List HostchainChangeItem → HostchainState → List EntityId →
      Except Error (HostchainState × List EntityId)
  | [], s, added => .ok (s, added)
  | item :: rest, s, added => do
    let key ← verifyItem parser item
    itemLoop parser rest (s.apply item) (added ++ key.toList)

/-- The place of a link after the links before it: the first names its own signer as the host, the
    others name the link before and are signed by an active host key. -/
def checkPlace (prior : HostchainState) (change : HostchainChange) (expected : UInt64) :
    Except Error Unit :=
  if expected = 1 then
    if change.chainer.previous.isSome then .error .genesisHasPrevious
    else if change.host ≠ change.signer then .error .genesisSigner
    else .ok ()
  else do
    let previous ← okOr .missingPrevious change.chainer.previous
    if previous ≠ prior.tail then .error .previousMismatch
    else if prior.host ≠ some change.host then .error .hostChanged
    else if change.signer ∉ prior.activeKeys entityHost ∨ change.signer ∈ prior.revoked then
      .error .inactiveHostSigner
    else .ok ()

/-- The loop over the signatures, each over the inner blob and the signatures before it. -/
def signatureLoop (digest : Digest) (scheme : SignatureScheme) (link : HostchainLink) :
    Nat → List (Signature × EntityId) → Except Error Unit
  | _, [] => .ok ()
  | index, (signature, key) :: rest => do
    let bytes ← protocol (link.signingBytes index)
    verifySignature digest scheme key signature hostchainLinkOuterV1TypeId bytes
    signatureLoop digest scheme link (index + 1) rest

def verifyHostchainLink (digest : Digest) (scheme : SignatureScheme) (parser : CertificateParser)
    (prior : HostchainState) (link : HostchainLink) : Except Error HostchainState := do
  let change ← protocol link.decodeChange
  let expected ← okOr (.sequence (UInt64.ofNat (2 ^ 64 - 1)) change.chainer.seqno)
    (checkedAddU64 prior.seqno 1)
  if change.chainer.seqno ≠ expected then .error (.sequence expected change.chainer.seqno)
  else do
    checkPlace prior change expected
    let bytes ← protocol link.encoded
    let linkHash ← prefixedHash digest hostchainLinkOuterTypeId bytes
    let candidate := { prior with
      seqno := change.chainer.seqno
      host := some change.host
      time := change.chainer.time
      tail := linkHash }
    let (candidate, added) ← itemLoop parser change.changes candidate []
    let verifyingKeys := added ++ [change.signer]
    let candidate := if expected = 1 then candidate.addKey change.signer else candidate
    if link.signatures.length ≠ verifyingKeys.length then
      .error (.signatureCount link.signatures.length verifyingKeys.length)
    else do
      signatureLoop digest scheme link 0 (link.signatures.zip verifyingKeys)
      .ok candidate

def verifyHostchain (digest : Digest) (scheme : SignatureScheme) (parser : CertificateParser)
    (links : List HostchainLink) : Except Error HostchainState :=
  links.foldlM (verifyHostchainLink digest scheme parser) .start

/-- The chain up to an externally known tail. -/
def hostchainAtTailLoop (digest : Digest) (scheme : SignatureScheme) (parser : CertificateParser)
    (expected : HostchainTail) : HostchainState → List HostchainLink → Except Error HostchainState
  | _, [] => .error .persistedMerkleEvidence
  | state, link :: rest => do
    let state ← verifyHostchainLink digest scheme parser state link
    if state.seqno = expected.seqno then
      if state.tail = expected.hash then .ok state else .error .persistedMerkleEvidence
    else hostchainAtTailLoop digest scheme parser expected state rest

def verifyHostchainAtTail (digest : Digest) (scheme : SignatureScheme) (parser : CertificateParser)
    (links : List HostchainLink) (expected : HostchainTail) : Except Error HostchainState :=
  hostchainAtTailLoop digest scheme parser expected .start links

/-! ## Delegates -/

def verifyMerkleBinding (chain : HostchainState) (root : MerkleRoot) : Except Error Unit :=
  if root.hostchain.seqno ≠ chain.seqno ∨ root.hostchain.hash ≠ chain.tail then
    .error .merkleHostchainMismatch
  else .ok ()

/-- A blob signed by one of the active delegates of a kind. -/
def verifyWithDelegatedBlobKey (digest : Digest) (scheme : SignatureScheme)
    (chain : HostchainState) (entityType : UInt8) (label : String) (signature : Signature)
    (blobTypeId : UInt64) (inner : List UInt8) : Except Error Unit :=
  let keys := (chain.activeKeys entityType).reverse
  if keys.isEmpty then .error (.missingDelegatedKey label)
  else if keys.any fun key =>
      (verifyBlob digest scheme key signature blobTypeId inner).toBool then .ok ()
  else .error (.delegatedSignature label)

end Foks.Verify
