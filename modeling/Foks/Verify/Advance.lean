/-
  Advancing a pinned Merkle root (`foks-verify`, `merkle.rs`).

  A client that trusts the root of one epoch is given the root of a later one and a response
  with the roots on the skip path between the two and the hashes beside it. The verifier puts
  all hashes into one map, walks the path, and at each epoch compares the hash of the pointers,
  read from the map, with the one the root commits to. The map is then taken as authenticated.
-/
import Foks.Merkle.BackPointers
import Foks.Verify.Basic

namespace Foks.Verify

open Foks.Lib Foks.Crypto
open Foks.Proto (HostchainTail MerkleRoot HistoricalMerkleRoots merkleRootTypeId
  merkleBackPointersTypeId)
open Foks.MerkleStore (EpochSet visitPointers backPointersValue)

/-! ## State -/

inductive MerkleRootEvidence where
  | signedBootstrap (bytes : List UInt8)
  | localCheckpoint (signedRoot : List UInt8)
  | signedRefresh (signedRoot : List UInt8) (priorEpoch : UInt64) (prior : MerkleRootEvidence)
  | skipPath (signedRoot : List UInt8) (anchorEpoch : UInt64) (historicalResponse : List UInt8)
      (prior : MerkleRootEvidence)

structure AuthenticatedMerkleRoot where
  epoch : UInt64
  rootHash : Hash
  rootBytes : Option (List UInt8)
  deriving DecidableEq

structure VerifiedMerkleRoot where
  epoch : UInt64
  rootHash : Hash
  rootBytes : List UInt8
  evidence : MerkleRootEvidence
  authenticatedRoots : List AuthenticatedMerkleRoot

/-- `AuthenticatedMerkleRoots`: the hash of each epoch's root. -/
abbrev RootHashes := Std.ExtTreeMap UInt64 Hash compare

abbrev RootMap := Std.ExtTreeMap UInt64 MerkleRoot compare

abbrev RootEntries := Std.ExtTreeMap UInt64 AuthenticatedMerkleRoot compare

structure VerifiedMerkleAdvance where
  root : MerkleRoot
  snapshot : VerifiedMerkleRoot
  authenticatedRoots : RootHashes

/-- The hashes of a pinned root's own set; of two entries for an epoch the later one stays. -/
def VerifiedMerkleRoot.authenticatedRootSet (pinned : VerifiedMerkleRoot) : RootHashes :=
  insertEach ∅ (pinned.authenticatedRoots.map fun root => (root.epoch, root.rootHash))

/-! ## Pointers and requests -/

/-- The `while epoch > cursor` loop. -/
def merkleBackpointerLoop (epoch : UInt64) : Nat → UInt64 → List UInt64
  | 0, _ => []
  | turns + 1, cursor =>
    if epoch > cursor then
      (epoch - cursor) ::
        (if epoch &&& cursor ≠ 0 then [] else merkleBackpointerLoop epoch turns (cursor <<< 1))
    else []

def merkleBackpointerSequence (epoch : UInt64) : List UInt64 :=
  if epoch = 0 ∨ epoch = 1 then []
  else if epoch = 2 then [1]
  else if epoch = 3 then [2, 1]
  else if epoch = 4 then [3, 2, 1]
  else merkleBackpointerLoop epoch 64 1

/-- The `while start > end` loop. Every turn but the last lowers `start`, so `start` turns do;
    the loop over the pointers of one epoch is the store's. -/
def merkleCollectLoop (stop : UInt64) :
    Nat → UInt64 → List UInt64 → EpochSet → EpochSet → List UInt64 × EpochSet
  | 0, _, path, _, siblings => (path, siblings)
  | turns + 1, start, path, roots, siblings =>
    if start > stop then
      let roots := roots.insert start
      let (next, siblings) :=
        visitPointers stop roots (merkleBackpointerSequence start) start siblings
      if next ≥ start then (path ++ [start], siblings)
      else merkleCollectLoop stop turns next (path ++ [start]) roots siblings
    else (path, siblings)

def merkleCollectRoots (start stop : UInt64) : List UInt64 × List UInt64 :=
  let (path, siblings) := merkleCollectLoop stop start.toNat start [] ∅ ∅
  (path, siblings.toList.reverse)

structure MerkleHistoryRequest where
  fullRoots : List UInt64
  hashes : List UInt64
  deriving DecidableEq

def merkleHistoryRequirements (latest pinned : UInt64) : Except Error MerkleHistoryRequest :=
  if pinned = 0 ∨ latest = 0 then .error .merkleHistoryShape
  else if latest < pinned then .error (.merkleRollback pinned latest)
  else if latest = pinned then .ok ⟨[], []⟩
  else
    let (roots, siblings) := merkleCollectRoots latest pinned
    .ok ⟨roots.filter (fun epoch => epoch ≠ latest ∧ epoch ≠ pinned),
      siblings.filter (fun epoch => epoch ≠ latest ∧ epoch ≠ pinned)⟩

/-! ## Hashes of roots and pointers -/

section

variable (digest : Digest)

def hashRoot (root : MerkleRoot) : Except Error Hash := do
  let bytes ← protocol root.encoded
  prefixedHash digest merkleRootTypeId bytes

def hashBackPointers (pointers : List (UInt64 × Hash)) : Except Error Hash := do
  let bytes ← encoded (backPointersValue pointers)
  prefixedHash digest merkleBackPointersTypeId bytes

def verifyRootHostchain (root : MerkleRoot) (tail : HostchainTail) : Except Error Unit :=
  if root.hostchain = tail then .ok () else .error .merkleHostchainMismatch

/-! ## Filling the map -/

/-- The loop over the full roots of the response. Their hashes overwrite what is there. -/
def insertRoots (digest : Digest) :
    List (UInt64 × MerkleRoot) → RootMap → RootHashes → Except Error (RootMap × RootHashes)
  | [], roots, hashes => .ok (roots, hashes)
  | (expectedEpoch, root) :: rest, roots, hashes =>
    if root.epoch ≠ expectedEpoch then .error .merkleHistoryShape
    else do
      let hash ← hashRoot digest root
      insertRoots digest rest (roots.insert root.epoch root) (hashes.insert root.epoch hash)

/-- Inserts hashes one by one. A hash that is there already must be the same. -/
def insertChecked (conflict : UInt64 → Error) :
    List (UInt64 × Hash) → RootHashes → Except Error RootHashes
  | [], hashes => .ok hashes
  | (epoch, hash) :: rest, hashes =>
    if hashes[epoch]?.any (fun known => known ≠ hash) then .error (conflict epoch)
    else insertChecked conflict rest (hashes.insert epoch hash)

/-- The loop over the hashes of the response. -/
def insertHashes (es : List (UInt64 × Hash)) (hashes : RootHashes) : Except Error RootHashes :=
  insertChecked (fun _ => .merkleBackPointer) es hashes

variable (pinned : VerifiedMerkleRoot)

/-- The roots and hashes of the pin, the latest root and the response together. -/
def collectHistory (pinnedRoot latest : MerkleRoot) (latestHash : Hash)
    (history : MerkleHistoryRequest) (historical : HistoricalMerkleRoots) :
    Except Error (RootMap × RootHashes) := do
  let known := pinned.authenticatedRootSet
  if known[latest.epoch]?.any (fun known => known ≠ latestHash) then
    .error (.merkleFork latest.epoch)
  else do
    let (roots, hashes) ← insertRoots digest (history.fullRoots.zip historical.roots)
      (insertEach ∅ [(pinned.epoch, pinnedRoot), (latest.epoch, latest)])
      (known.insert latest.epoch latestHash)
    let hashes ← insertHashes (history.hashes.zip historical.hashes) hashes
    .ok (roots, hashes)

/-! ## Walking the path -/

/-- The pointers of an epoch with their hashes from the map. -/
def pointersOf (hashes : RootHashes) (epoch : UInt64) : Except Error (List (UInt64 × Hash)) :=
  (merkleBackpointerSequence epoch).mapM fun target => do
    let hash ← okOr .merkleHistoryShape hashes[target]?
    .ok (target, hash)

/-- The pointers of the epoch before must have this epoch with the hash of the map. -/
def checkPrior (hashes : RootHashes) (epoch : UInt64) :
    Option (List (UInt64 × Hash)) → Except Error Unit
  | none => .ok ()
  | some pointers => do
    let expected ← okOr .merkleHistoryShape hashes[epoch]?
    if ¬ pointers.any (fun p => p.1 = epoch ∧ p.2 = expected) then .error .merkleBackPointer
    else .ok ()

def checkPath (digest : Digest) (roots : RootMap) (hashes : RootHashes) :
    List UInt64 → Option (List (UInt64 × Hash)) → Except Error (Option (List (UInt64 × Hash)))
  | [], prior => .ok prior
  | epoch :: rest, prior => do
    let root ← okOr .merkleHistoryShape roots[epoch]?
    checkPrior hashes epoch prior
    let pointers ← pointersOf hashes epoch
    let hash ← hashBackPointers digest pointers
    if hash ≠ root.backPointers then .error .merkleBackPointer
    else checkPath digest roots hashes rest (some pointers)

/-! ## The advance -/

/-- The bytes to keep for an epoch: those received for the latest one, those of the root where
    the root is known. -/
def entryBytes (latestEpoch : UInt64) (latestBytes : List UInt8) (roots : RootMap)
    (epoch : UInt64) : Except Error (Option (List UInt8)) :=
  if epoch = latestEpoch then .ok (some latestBytes)
  else match roots[epoch]? with
    | some root => (protocol root.encoded).map some
    | none => .ok none

/-- One step of the merge into the snapshot's entries: new epochs are added, and an entry
    without bytes is given them. -/
def mergeEntry (latestEpoch : UInt64) (latestBytes : List UInt8) (roots : RootMap)
    (entries : RootEntries) (e : UInt64 × Hash) :
    Except Error (RootEntries) := do
  let rootBytes ← entryBytes latestEpoch latestBytes roots e.1
  .ok (entries.insert e.1 (match entries[e.1]? with
    | some stored => if stored.rootBytes.isNone then { stored with rootBytes } else stored
    | none => ⟨e.1, e.2, rootBytes⟩))

/-- The result of an advance to a later root. -/
def advanceTo (latest : MerkleRoot) (latestHash : Hash) (latestBytes historicalBytes : List UInt8)
    (hashes : RootHashes) (entries : RootEntries) : VerifiedMerkleAdvance where
  root := latest
  snapshot := {
    epoch := latest.epoch
    rootHash := latestHash
    rootBytes := latestBytes
    evidence := .skipPath [] pinned.epoch historicalBytes pinned.evidence
    authenticatedRoots := entries.toList.map Prod.snd }
  authenticatedRoots := hashes

/-- The part of `verify_merkle_advance` for a latest root above the pin. -/
def connectLatest (pinnedRoot latest : MerkleRoot) (latestHash : Hash)
    (latestBytes historicalBytes : List UInt8) : Except Error VerifiedMerkleAdvance := do
  let history ← merkleHistoryRequirements latest.epoch pinned.epoch
  let historical ← protocol (HistoricalMerkleRoots.decode historicalBytes)
  if historical.roots.length ≠ history.fullRoots.length ∨
      historical.hashes.length ≠ history.hashes.length then .error .merkleHistoryShape
  else do
    let (roots, hashes) ←
      collectHistory digest pinned pinnedRoot latest latestHash history historical
    let prior ← checkPath digest roots hashes (merkleCollectRoots latest.epoch pinned.epoch).1 none
    let finalPointers ← okOr .merkleBackPointer prior
    if ¬ finalPointers.any (fun p => p.1 = pinned.epoch ∧ p.2 = pinned.rootHash) then
      .error .merkleBackPointer
    else do
      let entries ← hashes.toList.foldlM (mergeEntry latest.epoch latestBytes roots)
        (insertEach ∅ (pinned.authenticatedRoots.map fun root => (root.epoch, root)))
      .ok (advanceTo pinned latest latestHash latestBytes historicalBytes hashes entries)

def verifyMerkleAdvance (latestBytes historicalBytes : List UInt8)
    (trustedHostchain : HostchainTail) : Except Error VerifiedMerkleAdvance := do
  let pinnedRoot ← protocol (MerkleRoot.decode pinned.rootBytes)
  let pinnedHash ← hashRoot digest pinnedRoot
  if pinnedRoot.epoch ≠ pinned.epoch ∨ pinnedHash ≠ pinned.rootHash then
    .error (.merkleFork pinned.epoch)
  else do
    let latest ← protocol (MerkleRoot.decode latestBytes)
    if latest.epoch < pinned.epoch then .error (.merkleRollback pinned.epoch latest.epoch)
    else do
      verifyRootHostchain latest trustedHostchain
      let latestHash ← hashRoot digest latest
      if latest.epoch = pinned.epoch then
        if latestHash ≠ pinned.rootHash then .error (.merkleFork latest.epoch)
        else .ok {
          root := latest
          snapshot := {
            epoch := pinned.epoch
            rootHash := pinned.rootHash
            rootBytes := pinned.rootBytes
            evidence := pinned.evidence
            authenticatedRoots := pinned.authenticatedRoots }
          authenticatedRoots := pinned.authenticatedRootSet }
      else connectLatest digest pinned pinnedRoot latest latestHash latestBytes historicalBytes

end

end Foks.Verify
