/-
  The generic chains of users and teams (`foks-server-db`, `generic.rs`): the settings and the team
  memberships of a user, and the memberships of a team.

  A link is signed by an active device of the user, or by a team key of the admins or the owners of
  the greatest generation. Its signer must have started by the epoch of the root that the link
  cites. The check of a settings link against the stored passphrase, which can only refuse the
  link, is left out.
-/
import Foks.ServerDb.Database

namespace Foks.ServerDb

open Foks.Lib Foks.Snowpack Foks.Crypto Foks.Proto Foks.Verify

def chainTypeUserSettings : UInt64 := 2
def chainTypeTeamMembership : UInt64 := 4
def chainLocationDerivationTypeId : UInt64 := 0xe516acf96cf56e58

/-- The hidden location of the first link of a generic chain. -/
def subchainTreeLocation (digest : Digest) (seed : Hash) (chainType : UInt64) :
    Except Error Hash := do
  if chainType ≠ chainTypeUserSettings ∧ chainType ≠ chainTypeTeamMembership then
    .error (.invalid "subchain location derivation")
  else do
    let object ← (encode (.array [.unsigned chainType, .variantNone])).mapError
      fun _ => .invalid "subchain location derivation"
    .ok (commitment digest chainLocationDerivationTypeId object seed.bytes)

structure GenericLinkMutation where
  entityId : EntityId
  chainType : UInt64
  signerCredentialId : EntityId
  sequence : UInt64
  previous : Option Hash
  linkRoot : TreeRoot
  currentTreeLocation : Hash
  nextTreeLocation : Hash
  linkHash : Hash
  link : UserLink

def GenericLinkMutation.row (link : GenericLinkMutation) (publicationEpoch : UInt64) :
    GenericRow where
  entityId := link.entityId
  chainType := link.chainType
  seqno := link.sequence
  linkHash := link.linkHash
  link := link.link
  rootEpoch := publicationEpoch
  nextTreeLocation := link.nextTreeLocation

def validateLink (link : GenericLinkMutation) : Except Error Unit :=
  let validEntityAndChain :=
    link.entityId.entityType = entityUser ∧ link.chainType = chainTypeUserSettings ∨
    link.entityId.entityType = entityUser ∧ link.chainType = chainTypeTeamMembership ∨
    isTeam link.entityId ∧ link.chainType = chainTypeTeamMembership
  if ¬ validEntityAndChain ∨ link.sequence = 0 ∨ link.linkRoot.epoch = 0 then
    .error (.invalid "generic link mutation")
  else .ok ()

namespace Database

/-- The keys that may sign for a team now. -/
def SignsForTeam (db : Database) (team signer : EntityId) (row : SharedKeyRow) : Prop :=
  row.owner = team ∧ row.key.verifyKey = signer ∧
    (row.key.role = .admin ∨ row.key.role = .owner) ∧ IsCurrentKey db.teamKeys row

instance (db : Database) (team signer : EntityId) (row : SharedKeyRow) :
    Decidable (db.SignsForTeam team signer row) :=
  inferInstanceAs (Decidable (_ ∧ _ ∧ _ ∧ _))

/-- The epoch from which a signer counts. -/
def signerStart (db : Database) (entity signer : EntityId) : Option UInt64 :=
  if entity.entityType = entityUser then
    (db.devices.find? fun row => row.uid = entity ∧ row.active ∧ row.deviceId = signer).map
      DeviceRow.startEpoch
  else if isTeam entity then
    (db.teamKeys.find? fun row => db.SignsForTeam entity signer row).map SharedKeyRow.startEpoch
  else none

/-- The link continues its chain. -/
def followsHead (db : Database) (link : GenericLinkMutation) : Bool :=
  match (db.genericChain link.entityId link.chainType).getLast? with
  | none => link.sequence = 1 ∧ link.previous = none
  | some head =>
    checkedAddU64 head.seqno 1 = some link.sequence ∧ link.previous = some head.linkHash

/-- Where the link must be in the tree: the seed says it for the first link and the link before for
    any other. -/
def expectedLocation (digest : Digest) (db : Database) (link : GenericLinkMutation) :
    Except Error Hash :=
  if link.sequence = 1 then do
    let seed ← okOr .noRows (db.locationSeed link.entityId)
    subchainTreeLocation digest seed link.chainType
  else
    okOr .noRows (((db.genericChain link.entityId link.chainType).getLast?).map
      GenericRow.nextTreeLocation)

def insertGenericLink (digest : Digest) (db : Database) (link : GenericLinkMutation)
    (publicationEpoch : UInt64) : Except Error Database := do
  validateLink link
  let start ← okOr .authorizationChanged (db.signerStart link.entityId link.signerCredentialId)
  if link.linkRoot.epoch < start then .error .authorizationChanged
  else do
    let epoch ← sqlInteger link.linkRoot.epoch
    if (db.rootAt epoch).map StoredRoot.hash ≠ some link.linkRoot.hash then .error .staleRoot
    else if db.followsHead link = false then .error .staleRoot
    else do
      let location ← expectedLocation digest db link
      if location ≠ link.currentTreeLocation then .error (.invalid "generic current tree location")
      else do
        let _ ← sqlInteger link.sequence
        let _ ← sqlInteger publicationEpoch
        let genericLinks ← okOr .constraint
          (insertRow GenericRow.place db.genericLinks (link.row publicationEpoch))
        let next ← okOr .integerRange (checkedAddU64 link.sequence 1)
        let _ ← sqlInteger next
        .ok { db with genericLinks }

theorem insertGenericLink_eq_ok {digest : Digest} {db db' : Database} {link : GenericLinkMutation}
    {publicationEpoch : UInt64} (h : insertGenericLink digest db link publicationEpoch = .ok db') :
    db' = { db with genericLinks := db.genericLinks ++ [link.row publicationEpoch] } := by
  obtain ⟨-, -, h⟩ := bind_eq_ok.mp h
  obtain ⟨_, -, h⟩ := bind_eq_ok.mp h
  obtain ⟨-, h⟩ := ite_error_eq_ok.mp h
  obtain ⟨_, -, h⟩ := bind_eq_ok.mp h
  obtain ⟨-, h⟩ := ite_error_eq_ok.mp h
  obtain ⟨-, h⟩ := ite_error_eq_ok.mp h
  obtain ⟨_, -, h⟩ := bind_eq_ok.mp h
  obtain ⟨-, h⟩ := ite_error_eq_ok.mp h
  obtain ⟨_, -, h⟩ := bind_eq_ok.mp h
  obtain ⟨_, -, h⟩ := bind_eq_ok.mp h
  obtain ⟨genericLinks, hrows, h⟩ := bind_eq_ok.mp h
  obtain ⟨_, -, h⟩ := bind_eq_ok.mp h
  obtain ⟨_, -, h⟩ := bind_eq_ok.mp h
  obtain ⟨-, rfl⟩ := insertRow_eq_some.mp (okOr_eq_ok.mp hrows)
  cases h
  rfl

end Database

end Foks.ServerDb
