/-
  Trust anchors: the bootstrap from a probe, signed advances, and their restoration from stored
  evidence (`foks-verify`, `host.rs` and `merkle.rs`).

  A probe response gives the host chain and a root signed by one of the Merkle signers of the chain.
  From there every later root is signed as well and connected to the one before by a skip path. The
  evidence of a root is the nest of these steps; `restoreMerkleAnchor` takes it apart from the
  outermost step in and replays it, with the bytes of the roots from one flat list.
-/
import Foks.Verify.Advance
import Foks.Verify.Hostchain

namespace Foks.Verify

open Foks.Lib Foks.Crypto Foks.Proto

/-! ## The probe -/

structure HostService where
  serviceType : ServiceType
  endpointBytes : List UInt8
  deriving DecidableEq

structure VerifiedHostSnapshot where
  lookupName : List UInt8
  hostId : List UInt8
  canonicalName : List UInt8
  genesisKey : List UInt8
  chainSeqno : UInt64
  chainTailHash : Hash
  chainBytes : List UInt8
  publicZoneBytes : List UInt8
  services : List HostService
  merkleRoot : VerifiedMerkleRoot

structure VerifiedPublicHost where
  snapshot : VerifiedHostSnapshot
  publicZone : PublicZone
  merkleRoot : MerkleRoot

/-- Whether a text is a port, as `str::parse::<u16>` reads it. -/
def isPort (text : List UInt8) : Bool :=
  let digits := match text with
    | 0x2b :: rest => rest
    | _ => text
  ¬ digits.isEmpty ∧ (digits.foldl (fun value digit => value.bind fun value =>
    if 0x30 ≤ digit ∧ digit ≤ 0x39 ∧ value * 10 + (digit.toNat - 0x30) < 2 ^ 16
      then some (value * 10 + (digit.toNat - 0x30)) else none) (some 0)).isSome

/-- `str::split_once` at a bracket and a colon. -/
def splitBracket : List UInt8 → Option (List UInt8 × List UInt8)
  | 0x5d :: 0x3a :: rest => some ([], rest)
  | [] => none
  | byte :: rest => (splitBracket rest).map fun (host, port) => (byte :: host, port)

/-- `str::rsplit_once` at a colon. -/
def splitLastColon (text : List UInt8) : Option (List UInt8 × List UInt8) :=
  let port := (text.reverse.takeWhile (· ≠ 0x3a)).reverse
  if 0x3a ∈ text then some (text.take (text.length - port.length - 1), port) else none

/-- The host of an address, without brackets and port. -/
def canonicalHost (address : List UInt8) : Except Error (List UInt8) :=
  match address with
  | 0x5b :: address => do
    let (host, port) ← okOr .invalidProbeAddress (splitBracket address)
    if host.isEmpty then .error .invalidProbeAddress
    else if isPort port then .ok host else .error .invalidProbeAddress
  | address =>
    match splitLastColon address with
    | none => if address.isEmpty then .error .invalidProbeAddress else .ok address
    | some (host, port) =>
      if host.isEmpty then .error .invalidProbeAddress
      else if 0x3a ∈ host then .error .invalidProbeAddress
      else if isPort port then .ok host else .error .invalidProbeAddress

def publicZoneServices (publicZone : PublicZone) : Except Error (List HostService) := do
  let services ← publicZone.services.entries.mapM fun (serviceType, endpoint) => do
    let endpointBytes ← encoded (.text endpoint)
    .ok (⟨serviceType, endpointBytes⟩ : HostService)
  .ok (services.mergeSort fun a b => a.serviceType.protocolValue ≤ b.serviceType.protocolValue)

section

variable (digest : Digest) (scheme : SignatureScheme)

/-- A blob that one of the chain's Merkle signers has signed. -/
def verifyMerkleSigner (chain : HostchainState) (signed : SignedBlob) : Except Error Unit :=
  verifyWithDelegatedBlobKey digest scheme chain entityHostMerkleSigner "Merkle signer"
    signed.signature merkleRootBlobTypeId signed.inner

variable (parser : CertificateParser)

def verifyPublicHost (lookupName probeBytes : List UInt8) : Except Error VerifiedPublicHost := do
  let probe ← protocol (ProbeResponse.decode probeBytes)
  if probe.hostchain.isEmpty then .error .emptyHostchain
  else do
    let chain ← verifyHostchain digest scheme parser probe.hostchain
    let host ← okOr .emptyHostchain chain.host
    verifyWithDelegatedBlobKey digest scheme chain entityHostMetadataSigner "host metadata"
      probe.publicZone.signature publicZoneBlobTypeId probe.publicZone.inner
    let publicZone ← protocol (PublicZone.decode probe.publicZone.inner)
    verifyMerkleSigner digest scheme chain probe.merkleRoot
    let merkleRoot ← protocol (MerkleRoot.decode probe.merkleRoot.inner)
    verifyMerkleBinding chain merkleRoot
    let rootHash ← hashRoot digest merkleRoot
    let services ← publicZoneServices publicZone
    let canonicalName ← canonicalHost publicZone.services.probe
    let chainBytes ← protocol probe.encodedHostchain
    let publicZoneBytes ← protocol probe.publicZone.encoded
    let signedRoot ← protocol probe.merkleRoot.encoded
    .ok {
      snapshot := {
        lookupName, canonicalName, services, chainBytes, publicZoneBytes
        hostId := host.bytes
        genesisKey := host.bytes.tail
        chainSeqno := chain.seqno
        chainTailHash := chain.tail
        merkleRoot := {
          epoch := merkleRoot.epoch
          rootHash := rootHash
          rootBytes := probe.merkleRoot.inner
          evidence := .signedBootstrap signedRoot
          authenticatedRoots :=
            [⟨merkleRoot.epoch, rootHash, some probe.merkleRoot.inner⟩] } }
      publicZone, merkleRoot }

/-! ## Signed advances -/

/-- A skip path is kept with the signed root it leads to. -/
def MerkleRootEvidence.withSignedRoot (signedRoot : List UInt8) :
    MerkleRootEvidence → MerkleRootEvidence
  | .skipPath _ anchorEpoch historicalResponse prior =>
    .skipPath signedRoot anchorEpoch historicalResponse prior
  | evidence => evidence

def VerifiedMerkleRoot.withSignedRoot (root : VerifiedMerkleRoot) (signedRoot : List UInt8) :
    VerifiedMerkleRoot :=
  { root with evidence := root.evidence.withSignedRoot signedRoot }

def verifySignedMerkleAdvance (pinned : VerifiedMerkleRoot)
    (signedLatestBytes historicalBytes hostchainBytes : List UInt8)
    (trustedHostchain : HostchainTail) : Except Error VerifiedMerkleAdvance := do
  let signed ← protocol (SignedBlob.decode signedLatestBytes)
  let links ← protocol (decodeHostchain hostchainBytes)
  let chain ← verifyHostchainAtTail digest scheme parser links trustedHostchain
  verifyMerkleSigner digest scheme chain signed
  let advanced ← verifyMerkleAdvance digest pinned signed.inner historicalBytes trustedHostchain
  .ok { advanced with snapshot := advanced.snapshot.withSignedRoot signedLatestBytes }

/-! ## Restoration -/

/-- The stored signature over a root. -/
def restoreSignedRoot (chain : HostchainState) (signedBytes rootBytes : List UInt8) :
    Except Error Unit := do
  let signed ← protocol (SignedBlob.decode signedBytes)
  if signed.inner ≠ rootBytes then .error .persistedMerkleEvidence
  else verifyMerkleSigner digest scheme chain signed

/-- The stored entry of an epoch, with its bytes. -/
def storedRoot (authenticatedRoots : List AuthenticatedMerkleRoot) (epoch : UInt64) :
    Except Error (AuthenticatedMerkleRoot × List UInt8) := do
  let entry ← okOr .persistedMerkleEvidence (authenticatedRoots.find? (·.epoch = epoch))
  let bytes ← okOr .persistedMerkleEvidence entry.rootBytes
  .ok (entry, bytes)

def maxEvidenceDepth : Nat := 4096

/-- What every level checks of its root before it looks at the evidence. -/
def restoreRoot (hostchain : List HostchainLink) (epoch : UInt64) (rootHash : Hash)
    (rootBytes : List UInt8) (depth : Nat) : Except Error (MerkleRoot × HostchainState) :=
  if depth > maxEvidenceDepth then .error .persistedMerkleEvidence
  else do
    let root ← protocol (MerkleRoot.decode rootBytes)
    let chain ← verifyHostchainAtTail digest scheme parser hostchain root.hostchain
    if root.epoch ≠ epoch then .error .persistedMerkleEvidence
    else do
      let hash ← hashRoot digest root
      if hash ≠ rootHash then .error .persistedMerkleEvidence else .ok (root, chain)

def restoreMerkleEvidence (digest : Digest) (scheme : SignatureScheme) (parser : CertificateParser)
    (authenticatedRoots : List AuthenticatedMerkleRoot) (hostchain : List HostchainLink) :
    MerkleRootEvidence → UInt64 → Hash → List UInt8 → Nat → Except Error VerifiedMerkleRoot
  | .localCheckpoint _, epoch, rootHash, rootBytes, depth => do
    let _ ← restoreRoot digest scheme parser hostchain epoch rootHash rootBytes depth
    .error .persistedMerkleEvidence
  | .signedBootstrap signedBytes, epoch, rootHash, rootBytes, depth => do
    let (_, chain) ← restoreRoot digest scheme parser hostchain epoch rootHash rootBytes depth
    restoreSignedRoot digest scheme chain signedBytes rootBytes
    .ok ⟨epoch, rootHash, rootBytes, .signedBootstrap signedBytes,
      [⟨epoch, rootHash, some rootBytes⟩]⟩
  | .signedRefresh signedRoot priorEpoch prior, epoch, rootHash, rootBytes, depth => do
    let (_, chain) ← restoreRoot digest scheme parser hostchain epoch rootHash rootBytes depth
    if epoch ≤ priorEpoch then .error .persistedMerkleEvidence
    else do
      restoreSignedRoot digest scheme chain signedRoot rootBytes
      let (priorRoot, priorBytes) ← storedRoot authenticatedRoots priorEpoch
      let restoredPrior ← restoreMerkleEvidence digest scheme parser authenticatedRoots hostchain
        prior priorRoot.epoch priorRoot.rootHash priorBytes (depth + 1)
      let roots := insertEach (∅ : RootEntries)
        (restoredPrior.authenticatedRoots.map fun root => (root.epoch, root))
      .ok ⟨epoch, rootHash, rootBytes, .signedRefresh signedRoot priorEpoch prior,
        sortedValues (roots.insert epoch ⟨epoch, rootHash, some rootBytes⟩)⟩
  | .skipPath signedRoot anchorEpoch historicalResponse prior, epoch, rootHash, rootBytes,
      depth => do
    let (root, chain) ← restoreRoot digest scheme parser hostchain epoch rootHash rootBytes depth
    if epoch ≤ anchorEpoch ∨ signedRoot.isEmpty then .error .persistedMerkleEvidence
    else do
      restoreSignedRoot digest scheme chain signedRoot rootBytes
      let (anchor, anchorBytes) ← storedRoot authenticatedRoots anchorEpoch
      let restoredAnchor ← restoreMerkleEvidence digest scheme parser authenticatedRoots hostchain
        prior anchor.epoch anchor.rootHash anchorBytes (depth + 1)
      let advanced ← verifyMerkleAdvance digest restoredAnchor rootBytes historicalResponse
        root.hostchain
      if advanced.snapshot.epoch ≠ epoch ∨ advanced.snapshot.rootHash ≠ rootHash then
        .error .persistedMerkleEvidence
      else .ok (advanced.snapshot.withSignedRoot signedRoot)

def restoreMerkleAnchor (epoch : UInt64) (rootHash : Hash) (rootBytes : List UInt8)
    (evidence : MerkleRootEvidence) (authenticatedRoots : List AuthenticatedMerkleRoot)
    (hostchainBytes : List UInt8) : Except Error VerifiedMerkleRoot := do
  let links ← protocol (decodeHostchain hostchainBytes)
  let _ ← verifyHostchain digest scheme parser links
  let restored ← restoreMerkleEvidence digest scheme parser authenticatedRoots links evidence
    epoch rootHash rootBytes 0
  if authenticatedRoots.mergeSort (fun a b => a.epoch ≤ b.epoch) ≠ restored.authenticatedRoots then
    .error .persistedMerkleEvidence
  else .ok restored

end

end Foks.Verify
