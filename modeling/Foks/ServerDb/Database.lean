/-
  The tables of the server's database (`foks-server-db`, `schema/*.sql`), the receipts of answered
  requests (`idempotency.rs`), and the published Merkle roots.

  A table is the list of its rows in the order of their insertion. A column that holds an encoding
  is modelled by the value it encodes, and the two columns of a role by the role: both ways there
  and back are one to one. A root is stored with the leaves of its tree, which its root node stands
  for (`runBatches_history_independent`).
-/
import Foks.Lib.Table
import Foks.Merkle.History
import Foks.Merkle.BackPointers
import Foks.Proto.KeyBoxes
import Foks.Proto.MerklePath
import Foks.Verify.TeamTransition

namespace Foks.ServerDb

open Foks.Lib Foks.Crypto Foks.Proto Foks.Verify
open Foks.MerkleStore (Leaves)

/-- A statement that breaks a key or a check of the schema ends in `constraint`. -/
inductive Error where
  | constraint
  | noRows
  | integerRange
  | invalid (what : String)
  | reservation
  | authorizationChanged
  | operationConflict
  | operationExpired
  | staleRoot
  | quotaExceeded
  | verify (error : Verify.Error)
  | kvConflict
  | kvPermission
  | kvLocked
  | kvLockTimeout
  | rtRace
  | rtMessageOrder
  | rtUnsupportedFormat
  | notFound (what : String)
  | capacity (what : String)
  | duplicate (what : String)
  deriving DecidableEq

/-- The limits that the modelled functions look at. -/
structure Config where
  maximumTeamChainLinks : UInt64
  maximumTeams : Nat
  maximumTeamMembers : Nat
  maximumTeamRoleBands : Nat
  maximumBoxesPerMutation : Nat

/-- `Config::default`. -/
def Config.standard : Config where
  maximumTeamChainLinks := 4096
  maximumTeams := 4096
  maximumTeamMembers := 64
  maximumTeamRoleBands := 16
  maximumBoxesPerMutation := 1024

/-! ## Rows -/

/-- A name is reserved under a token until some time, or it belongs to an entity for good. -/
inductive NameHolder where
  | reserved (token : FixedBytes 17) (expiresAt : UInt64)
  | owned (owner : EntityId)
  deriving DecidableEq

/-- A row of `team_names`. -/
structure NameRow where
  normalizedName : List UInt8
  sequence : UInt64
  holder : NameHolder
  deriving DecidableEq

structure DeviceRow where
  deviceId : EntityId
  uid : EntityId
  active : Bool
  startEpoch : UInt64
  deriving DecidableEq

/-- A row of `team_chain_links`, with the tree location of the link after it. -/
structure ChainRow where
  owner : EntityId
  seqno : UInt64
  linkHash : Hash
  link : UserLink
  rootEpoch : UInt64
  nextTreeLocation : Hash

/-- A row of `team_shared_keys`, with the epoch it starts at. -/
structure SharedKeyRow where
  owner : EntityId
  key : VerifiedSharedKey
  startEpoch : UInt64
  deriving DecidableEq

structure GenericRow where
  entityId : EntityId
  chainType : UInt64
  seqno : UInt64
  linkHash : Hash
  link : UserLink
  rootEpoch : UInt64
  nextTreeLocation : Hash

structure TeamRow where
  teamId : EntityId
  kind : UInt8
  hostId : EntityId
  normalizedName : Option (List UInt8)
  nameSequence : UInt64
  nameCommitmentKey : Option (FixedBytes 16)
  memberLoadFloor : Role
  deriving DecidableEq

structure TeamMember where
  party : EntityId
  scopedHost : Option EntityId
  sourceRole : Role
  role : Role
  generation : UInt64
  verifyKey : EntityId
  hepkFingerprint : Hash
  removalKeyCommitment : Option Hash
  deriving DecidableEq

structure TeamMemberRow where
  teamId : EntityId
  member : TeamMember
  deriving DecidableEq

structure TeamParcelRow where
  teamId : EntityId
  party : EntityId
  memberHost : EntityId
  targetRole : Role
  role : Role
  generation : UInt64
  senderId : EntityId
  parcel : PukParcel
  deriving DecidableEq

structure RemoteViewTokenRow where
  teamId : EntityId
  token : TeamRemoteMemberViewTokenInner
  joinRequest : FixedBytes 17
  deriving DecidableEq

structure ViewPermissionRow where
  teamId : EntityId
  target : EntityId
  minimumRole : Role
  deriving DecidableEq

/-- A row of `merkle_roots`. -/
structure StoredRoot where
  root : MerkleRoot
  hash : Hash
  leaves : Leaves

/-- A row of `request_receipts`. -/
structure Receipt where
  idempotencyKey : List UInt8
  requestHash : Hash
  response : List UInt8
  createdAt : UInt64
  expiresAt : UInt64

structure Database where
  config : Config
  /-- The identifiers of `users`. -/
  users : List EntityId
  devices : List DeviceRow
  subchainSeeds : List (EntityId × Hash)
  genericLinks : List GenericRow
  teamNames : List NameRow
  teams : List TeamRow
  teamLinks : List ChainRow
  teamMembers : List TeamMemberRow
  teamKeys : List SharedKeyRow
  teamParcels : List TeamParcelRow
  remoteViewTokens : List RemoteViewTokenRow
  viewPermissions : List ViewPermissionRow
  roots : List StoredRoot
  receipts : List Receipt

/-! ## The keys of the tables -/

def ChainRow.place (row : ChainRow) : EntityId × UInt64 := (row.owner, row.seqno)

def SharedKeyRow.place (row : SharedKeyRow) : EntityId × Role × UInt64 :=
  (row.owner, row.key.role, row.key.generation)

def GenericRow.place (row : GenericRow) : EntityId × UInt64 × UInt64 :=
  (row.entityId, row.chainType, row.seqno)

def TeamMemberRow.place (row : TeamMemberRow) : EntityId × EntityId × Option EntityId × Role :=
  (row.teamId, row.member.party, row.member.scopedHost, row.member.sourceRole)

def TeamParcelRow.place (row : TeamParcelRow) :
    EntityId × EntityId × EntityId × Role × Role × UInt64 :=
  (row.teamId, row.party, row.memberHost, row.targetRole, row.role, row.generation)

def RemoteViewTokenRow.place (row : RemoteViewTokenRow) : EntityId × FqParty :=
  (row.teamId, row.token.member)

def ViewPermissionRow.place (row : ViewPermissionRow) : EntityId × EntityId :=
  (row.teamId, row.target)

def StoredRoot.epoch (row : StoredRoot) : UInt64 := row.root.epoch

def StoredRoot.treeRoot (row : StoredRoot) : TreeRoot := ⟨row.epoch, row.hash⟩

/-- `sql_integer`: what fits a signed column. -/
def sqlInteger (value : UInt64) : Except Error UInt64 :=
  if value.toNat < 2 ^ 63 then .ok value else .error .integerRange

theorem sqlInteger_eq_ok {value stored : UInt64} :
    sqlInteger value = .ok stored ↔ value.toNat < 2 ^ 63 ∧ stored = value := by
  unfold sqlInteger
  split <;> simp_all [eq_comm]

namespace Database

/-! ## Reading -/

section

variable (db : Database)

def currentRoot : Option StoredRoot := db.roots.getLast?

def rootAt (epoch : UInt64) : Option StoredRoot :=
  db.roots.find? fun row => row.epoch = epoch

/-- The links of one chain, first link first. -/
def chainOf (rows : List ChainRow) (owner : EntityId) : List ChainRow :=
  rows.filter fun row => row.owner = owner

/-- The links of one generic chain, first link first. -/
def genericChain (entity : EntityId) (chainType : UInt64) : List GenericRow :=
  db.genericLinks.filter fun row => row.entityId = entity ∧ row.chainType = chainType

def locationSeed (entity : EntityId) : Option Hash :=
  (db.subchainSeeds.find? fun row => row.1 = entity).map Prod.snd

/-- The row of a device that has not been revoked. -/
def activeDevice (device : EntityId) : Option DeviceRow :=
  db.devices.find? fun row => row.deviceId = device ∧ row.active

/-- The generation is the greatest of the role among the keys of the owner. -/
def IsCurrentKey (rows : List SharedKeyRow) (row : SharedKeyRow) : Prop :=
  ∀ other ∈ rows, other.owner = row.owner → other.key.role = row.key.role →
    other.key.generation ≤ row.key.generation

instance (rows : List SharedKeyRow) (row : SharedKeyRow) : Decidable (IsCurrentKey rows row) :=
  inferInstanceAs (Decidable (∀ other ∈ rows, _))

/-! ## Receipts -/

def lookupReceipt (idempotencyKey : List UInt8) (requestHash : Hash) (now : UInt64) :
    Except Error (Option Receipt) :=
  match db.receipts.find? fun row => row.idempotencyKey = idempotencyKey with
  | none => .ok none
  | some row => do
    let now ← sqlInteger now
    if row.expiresAt ≤ now then .error .operationExpired
    else if row.requestHash ≠ requestHash then .error .operationConflict
    else .ok (some row)

def insertReceipt (row : Receipt) : Except Error Database := do
  if ¬ (16 ≤ row.idempotencyKey.length ∧ row.idempotencyKey.length ≤ 64) ∨
      row.expiresAt ≤ row.createdAt then .error (.invalid "idempotency record")
  else do
    let _ ← sqlInteger row.createdAt
    let _ ← sqlInteger row.expiresAt
    let receipts ← okOr .constraint (insertRow Receipt.idempotencyKey db.receipts row)
    .ok { db with receipts }

end

end Database

/-! ## Publishing -/

/-- A new root, with the leaves it sets and the root it was prepared on. -/
structure Publication where
  expected : TreeRoot
  leaves : List (Hash × Hash)
  stored : StoredRoot

namespace Database

/-- The root in force must be the one the publication was prepared on. -/
def checkHead (db : Database) (publication : Publication) : Except Error Unit := do
  let head ← okOr .noRows db.currentRoot
  if head.treeRoot ≠ publication.expected ∨
      publication.stored.epoch ≠ saturatingAddU64 publication.expected.epoch 1 then
    .error .staleRoot
  else .ok ()

/-- `publish_merkle`. The nodes that it writes are those of the new tree. -/
def publish (db : Database) (publication : Publication) : Except Error Database := do
  let _ ← sqlInteger publication.stored.epoch
  let roots ← okOr .constraint (insertRow StoredRoot.epoch db.roots publication.stored)
  .ok { db with roots }

theorem publish_eq_ok {db db' : Database} {publication : Publication}
    (h : db.publish publication = .ok db') :
    db' = { db with roots := db.roots ++ [publication.stored] } := by
  obtain ⟨_, -, h⟩ := bind_eq_ok.mp h
  obtain ⟨roots, hrows, h⟩ := bind_eq_ok.mp h
  cases h
  obtain ⟨-, rfl⟩ := insertRow_eq_some.mp (okOr_eq_ok.mp hrows)
  rfl

theorem insertReceipt_eq_ok {db db' : Database} {row : Receipt}
    (h : db.insertReceipt row = .ok db') : db' = { db with receipts := db'.receipts } := by
  obtain ⟨-, h⟩ := ite_error_eq_ok.mp h
  obtain ⟨_, -, h⟩ := bind_eq_ok.mp h
  obtain ⟨_, -, h⟩ := bind_eq_ok.mp h
  obtain ⟨receipts, -, h⟩ := bind_eq_ok.mp h
  cases h
  rfl

end Database

end Foks.ServerDb
