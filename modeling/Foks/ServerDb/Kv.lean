/-
  The KV store of the server (`foks-server-db`, `kv.rs`, and the tables and triggers of
  `schema/kv.sql`, `kv_accounting.sql` and `kv_current.sql`).

  Every version of a directory entry is kept (`kv_dirents`); `kv_dirent_heads` names the last one.
  `kv_dirent_current` holds the heads that are not removed, and no function writes it: triggers do,
  after an insert into `kv_dirents` and after an insert or update of `kv_dirent_heads`. The name
  check of a batch and the listing read that table only.

  A namespace is the rows of one party. It is entered in `kv_namespaces` before the transaction of a
  write starts (`inNamespace`), so it stays when the write is rolled back. Of the users and teams,
  and of the file uploads, only what the functions here look at is modelled.
-/
import Foks.Lib.Paging
import Foks.Proto.Kv
import Foks.ServerDb.Database

namespace Foks.ServerDb

open Foks.Lib Foks.Proto Foks.Verify

/-! ## Tables -/

/-- The limits of the KV store. -/
structure KvConfig where
  maximumBlobBytes : Nat
  maximumKvNodeBytes : Nat
  maximumKvDirentBytes : Nat
  maximumKvDirectories : UInt64
  maximumKvDirents : UInt64
  maximumKvNamespaceBytes : UInt64
  maximumKvNamespaceObjects : UInt64

/-- The values of `Config::default`. -/
def KvConfig.standard : KvConfig where
  maximumBlobBytes := 16 * 1024 * 1024
  maximumKvNodeBytes := 64 * 1024
  maximumKvDirentBytes := 4096
  maximumKvDirectories := 4096
  maximumKvDirents := 100000
  maximumKvNamespaceBytes := 16 * 1024 * 1024 * 1024
  maximumKvNamespaceObjects := 1000000

/-- A user (kind 1) or a team, and the host it is of. -/
structure KvPartyRow where
  id : List UInt8
  partyKind : UInt8
  hostId : List UInt8
  deriving DecidableEq

structure KvNamespaceRow where
  id : List UInt8
  partyKind : UInt8
  hostId : List UInt8
  accountedBytes : Int
  accountedObjects : Int
  directoryCount : Int
  direntCount : Int
  deriving DecidableEq

structure KvDirectoryRow where
  uid : List UInt8
  id : FixedBytes 16
  version : UInt64
  keyRole : UInt64
  keyVisibility : Int64
  keyGeneration : UInt64
  status : UInt64
  exact : List UInt8
  deriving DecidableEq

structure KvDirectoryHead where
  uid : List UInt8
  id : FixedBytes 16
  version : UInt64
  deriving DecidableEq

structure KvRootRow where
  uid : List UInt8
  version : UInt64
  directoryId : FixedBytes 16
  directoryVersion : UInt64
  exact : List UInt8
  deriving DecidableEq

structure KvNodeRow where
  uid : List UInt8
  id : KvNodeId
  nodeType : UInt64
  exact : List UInt8
  ciphertextBytes : Option Nat
  deriving DecidableEq

structure KvUploadRow where
  uid : List UInt8
  fileId : FixedBytes 16
  reclaiming : Bool
  deriving DecidableEq

structure KvDirentRow where
  uid : List UInt8
  parent : FixedBytes 16
  id : FixedBytes 16
  version : UInt64
  directoryVersion : UInt64
  node : KvNodeId
  nameMac : FixedBytes 32
  creationTime : UInt64
  exact : List UInt8
  deriving DecidableEq

structure KvDirentHead where
  uid : List UInt8
  parent : FixedBytes 16
  id : FixedBytes 16
  version : UInt64
  deriving DecidableEq

/-- A row of `kv_dirent_current`. -/
structure KvCurrentRow where
  uid : List UInt8
  parent : FixedBytes 16
  id : FixedBytes 16
  version : UInt64
  nameMac : FixedBytes 32
  creationTime : UInt64
  node : KvNodeId
  deriving DecidableEq

structure KvDatabase where
  config : KvConfig
  parties : List KvPartyRow
  namespaces : List KvNamespaceRow
  directories : List KvDirectoryRow
  directoryHeads : List KvDirectoryHead
  roots : List KvRootRow
  nodes : List KvNodeRow
  uploads : List KvUploadRow
  dirents : List KvDirentRow
  direntHeads : List KvDirentHead
  current : List KvCurrentRow

/-- Where an entry stands: its namespace, its directory and its identifier. -/
abbrev KvPlace := List UInt8 × FixedBytes 16 × FixedBytes 16

def KvDirectoryRow.place (row : KvDirectoryRow) : List UInt8 × FixedBytes 16 × UInt64 :=
  (row.uid, row.id, row.version)

def KvDirectoryHead.place (row : KvDirectoryHead) : List UInt8 × FixedBytes 16 :=
  (row.uid, row.id)

def KvNodeRow.place (row : KvNodeRow) : List UInt8 × KvNodeId := (row.uid, row.id)

def KvDirentRow.place (row : KvDirentRow) : KvPlace := (row.uid, row.parent, row.id)

def KvDirentRow.versionPlace (row : KvDirentRow) : KvPlace × UInt64 := (row.place, row.version)

def KvDirentHead.place (row : KvDirentHead) : KvPlace := (row.uid, row.parent, row.id)

def KvCurrentRow.place (row : KvCurrentRow) : KvPlace := (row.uid, row.parent, row.id)

/-- The entry is not removed: the first byte of its node is not zero. -/
def KvDirentRow.isLive (row : KvDirentRow) : Bool := row.node.kind ≠ 0

/-- What the triggers copy of an entry. -/
def KvDirentRow.toCurrent (row : KvDirentRow) : KvCurrentRow :=
  ⟨row.uid, row.parent, row.id, row.version, row.nameMac, row.creationTime, row.node⟩

/-! ## Requests -/

structure KvDirectoryMutation where
  uid : List UInt8
  id : FixedBytes 16
  version : UInt64
  keyRole : UInt64
  keyVisibility : Int64
  keyGeneration : UInt64
  status : UInt64
  exact : List UInt8

structure KvRootMutation where
  uid : List UInt8
  version : UInt64
  directoryId : FixedBytes 16
  directoryVersion : UInt64
  keyRole : UInt64
  keyGeneration : UInt64
  exact : List UInt8

structure KvNodeMutation where
  uid : List UInt8
  id : KvNodeId
  nodeType : UInt64
  exact : List UInt8

structure KvDirentMutation where
  parent : FixedBytes 16
  id : FixedBytes 16
  version : UInt64
  directoryVersion : UInt64
  node : KvNodeId
  nameMac : FixedBytes 32
  creationTime : UInt64
  exact : List UInt8

/-- The row that the mutation inserts. -/
def KvDirentMutation.row (uid : List UInt8) (mutation : KvDirentMutation) : KvDirentRow :=
  ⟨uid, mutation.parent, mutation.id, mutation.version, mutation.directoryVersion, mutation.node,
    mutation.nameMac, mutation.creationTime, mutation.exact⟩

inductive KvVersionCheck where
  | current
  | stale (versions : KvPathVersionVector)
  | future
  | missing
  deriving DecidableEq

inductive KvListCursor where
  | mac (mac : FixedBytes 32)
  | time (time : UInt64)

structure StoredKvDirent where
  exact : List UInt8
  node : KvNodeId
  deriving DecidableEq

namespace KvDatabase

/-! ## Namespaces and their quota -/

section

variable (db : KvDatabase)

/-- `ensure_kv_namespace`: whether the party is known and the namespace is its own. -/
def ensureKvNamespace (namespaceId : List UInt8) : Except Error (Bool × KvDatabase) :=
  if namespaceId.length ≠ 33 then .error (.invalid "KV namespace ID")
  else
    match db.parties.find? fun row => row.id = namespaceId with
    | none => .ok (false, db)
    | some party =>
      match db.namespaces.find? fun row => row.id = namespaceId with
      | some row => .ok (row.partyKind = party.partyKind ∧ row.hostId = party.hostId, db)
      | none =>
        .ok (true, { db with
          namespaces :=
            db.namespaces ++ [⟨namespaceId, party.partyKind, party.hostId, 0, 0, 0, 0⟩] })

variable (uid : List UInt8)

/-- A write of one namespace: a transaction that is rolled back when it fails, after the namespace
    was entered. -/
def inNamespace (transaction : KvDatabase → Except Error KvDatabase) :
    Except Error Unit × KvDatabase :=
  match db.ensureKvNamespace uid with
  | .error error => (.error error, db)
  | .ok (false, db) => (.error (.invalid "unknown KV namespace"), db)
  | .ok (true, db) =>
    match transaction db with
    | .error error => (.error error, db)
    | .ok db' => (.ok (), db')

/-- A sum that the code takes with `checked_add`. -/
def checkedSum (stored : Int) (added : Nat) : Except Error Nat :=
  if stored.toNat + added < 2 ^ 64 then .ok (stored.toNat + added) else .error .integerRange

def ensureKvCapacity (addedBytes addedObjects : Nat) : Except Error Unit := do
  let row ← okOr .noRows (db.namespaces.find? fun row => row.id = uid)
  let nextBytes ← checkedSum row.accountedBytes addedBytes
  let nextObjects ← checkedSum row.accountedObjects addedObjects
  if nextBytes > db.config.maximumKvNamespaceBytes.toNat ∨
      nextObjects > db.config.maximumKvNamespaceObjects.toNat then .error .quotaExceeded
  else .ok ()

def ensureKvTreeCapacity (addedDirectories addedDirents : Nat) : Except Error Unit := do
  let row ← okOr .noRows (db.namespaces.find? fun row => row.id = uid)
  let nextDirectories ← checkedSum row.directoryCount addedDirectories
  let nextDirents ← checkedSum row.direntCount addedDirents
  if nextDirectories > db.config.maximumKvDirectories.toNat ∨
      nextDirents > db.config.maximumKvDirents.toNat then .error .quotaExceeded
  else .ok ()

/-- The accounting triggers: each changes the counters of a namespace, which are signed 64-bit
    numbers and not negative. -/
def account (bytes objects directories dirents : Int) : Except Error KvDatabase :=
  let charge (row : KvNamespaceRow) : KvNamespaceRow :=
    if row.id = uid then
      { row with
        accountedBytes := row.accountedBytes + bytes
        accountedObjects := row.accountedObjects + objects
        directoryCount := row.directoryCount + directories
        direntCount := row.direntCount + dirents }
    else row
  let namespaces := db.namespaces.map charge
  let fits (count : Int) : Bool := 0 ≤ count ∧ count < 2 ^ 63
  if namespaces.all fun row => fits row.accountedBytes ∧ fits row.accountedObjects ∧
      fits row.directoryCount ∧ fits row.direntCount then .ok { db with namespaces }
  else .error .constraint

/-! ## Reading -/

def kvRoot : Option KvRootRow :=
  db.roots.find? fun row => row.uid = uid

/-- The version in `kv_directory_heads`. -/
def directoryVersion (id : FixedBytes 16) : Option UInt64 :=
  (db.directoryHeads.find? fun row => row.uid = uid ∧ row.id = id).map (·.version)

/-- The last version of a directory. -/
def kvDirectory (id : FixedBytes 16) : Option KvDirectoryRow := do
  let version ← db.directoryVersion uid id
  db.directories.find? fun row => row.place = (uid, id, version)

variable (place : KvPlace)

/-- The version in `kv_dirent_heads`. -/
def direntVersion : Option UInt64 :=
  (db.direntHeads.find? fun row => row.place = place).map (·.version)

/-- The last version of an entry, removed or not. -/
def kvDirent : Option KvDirentRow := do
  let version ← db.direntVersion place
  db.dirents.find? fun row => row.versionPlace = (place, version)

/-- A version of the directory with status `Active`. -/
def directoryExists (id : FixedBytes 16) (version : UInt64) : Bool :=
  db.directories.any fun row => row.place = (uid, id, version) ∧ row.status = 0

def nodeReferenceExists (node : KvNodeId) : Bool :=
  if node.kind = 0 then node.object.bytes.all (· = 0)
  else if node.kind = 1 then (db.directoryVersion uid node.object).isSome
  else if node.kind = 2 then
    db.uploads.any fun row => row.uid = uid ∧ row.fileId = node.object ∧ !row.reclaiming
  else if node.kind = 3 ∨ node.kind = 4 then
    db.nodes.any fun row => row.uid = uid ∧ row.id = node ∧ row.nodeType = node.kind.toUInt64
  else false

/-- `KV_NAME_CONFLICT_SQL`. -/
def nameConflict (nameMac : FixedBytes 32) : Bool :=
  db.current.any fun row =>
    row.uid = place.1 ∧ row.parent = place.2.1 ∧ row.id ≠ place.2.2 ∧ row.nameMac = nameMac

/-! ## The version check -/

/-- The entries of a cited directory whose versions are newer than cited. An entry that is missing
    or older than cited ends the check. -/
def staleEntries (db : KvDatabase) (uid : List UInt8) (directory : FixedBytes 16) :
    List KvDirentVersion → Except KvVersionCheck (List KvDirentVersion)
  | [] => .ok []
  | entry :: entries =>
    match db.direntVersion (uid, directory, entry.id) with
    | none => .error .missing
    | some current =>
      if current < entry.version then .error .future
      else do
        let stale ← db.staleEntries uid directory entries
        .ok (if current > entry.version then ⟨entry.id, current⟩ :: stale else stale)

def staleDirectories (db : KvDatabase) (uid : List UInt8) :
    List KvDirectoryVersion → Except KvVersionCheck (List KvDirectoryVersion)
  | [] => .ok []
  | directory :: directories =>
    match db.directoryVersion uid directory.id with
    | none => .error .missing
    | some current =>
      if current < directory.version then .error .future
      else do
        let entries ← db.staleEntries uid directory.id directory.entries
        let stale ← db.staleDirectories uid directories
        .ok (if current > directory.version ∨ entries ≠ [] then
          ⟨directory.id, current, entries⟩ :: stale else stale)

def kvVersionCheck (supplied : KvPathVersionVector) : KvVersionCheck :=
  match db.kvRoot uid with
  | none => .missing
  | some root =>
    if root.version < supplied.rootVersion then .future
    else
      match db.staleDirectories uid supplied.directories with
      | .error check => check
      | .ok stale =>
        if (supplied.rootVersion = 0 ∨ root.version = supplied.rootVersion) ∧ stale = [] then
          .current
        else .stale ⟨root.version, stale⟩

variable (precondition : Option KvPathVersionVector)

/-- The precondition of a write, if it has one, must hold now. -/
def requireVersions : Except Error Unit :=
  match precondition with
  | none => .ok ()
  | some supplied =>
    if db.kvVersionCheck uid supplied = .current then .ok () else .error .kvConflict

/-! ## Directories, nodes and roots -/

def insertDirectory (row : KvDirectoryRow) : Except Error KvDatabase := do
  let _ ← sqlInteger row.version
  let _ ← sqlInteger row.keyGeneration
  let directories ← okOr .constraint (insertRow KvDirectoryRow.place db.directories row)
  let db ← { db with directories }.account row.uid row.exact.length 1 0 0
  let directoryHeads ← okOr .constraint
    (insertRow KvDirectoryHead.place db.directoryHeads ⟨row.uid, row.id, row.version⟩)
  { db with directoryHeads }.account row.uid 0 0 1 0

/-- `put_kv_directory_with_precondition`; `put_kv_directory` is without one. -/
def putKvDirectory (mutation : KvDirectoryMutation) (precondition : Option KvPathVersionVector) :
    Except Error Unit × KvDatabase :=
  if mutation.uid.length ≠ 33 ∨ mutation.version = 0 ∨ mutation.keyGeneration = 0 ∨
      mutation.keyRole > 3 ∨ mutation.status > 2 ∨ mutation.exact = [] ∨
      mutation.exact.length > db.config.maximumBlobBytes then
    (.error (.invalid "KV directory mutation"), db)
  else db.inNamespace mutation.uid fun db =>
    match db.kvDirectory mutation.uid mutation.id with
    | some row =>
      if row.version = mutation.version ∧ row.exact = mutation.exact then .ok db
      else .error .kvConflict
    | none => do
      db.requireVersions mutation.uid precondition
      db.ensureKvCapacity mutation.uid mutation.exact.length 1
      db.ensureKvTreeCapacity mutation.uid 1 0
      db.insertDirectory ⟨mutation.uid, mutation.id, mutation.version, mutation.keyRole,
        mutation.keyVisibility, mutation.keyGeneration, mutation.status, mutation.exact⟩

/-- `stamp_node_usage`, on the row it stamps. -/
def nodeUsage (exact : List UInt8) : Except Error Nat :=
  match KvSmallFileBox.ciphertextLength exact with
  | .error _ => .error (.invalid "stored KV small node")
  | .ok length => .ok length

def putKvNode (mutation : KvNodeMutation) : Except Error Unit × KvDatabase :=
  if mutation.uid.length ≠ 33 ∨ ¬ (mutation.nodeType = 3 ∨ mutation.nodeType = 4) ∨
      mutation.id.kind.toUInt64 ≠ mutation.nodeType ∨ mutation.exact = [] ∨
      mutation.exact.length > db.config.maximumKvNodeBytes then
    (.error (.invalid "KV node mutation"), db)
  else db.inNamespace mutation.uid fun db =>
    match db.nodes.find? fun row => row.place = (mutation.uid, mutation.id) with
    | some row =>
      if row.exact ≠ mutation.exact then .error .kvConflict
      else if row.ciphertextBytes.isSome then .ok db
      else do
        let length ← nodeUsage mutation.exact
        .ok { db with
          nodes := upsertRow KvNodeRow.place db.nodes { row with ciphertextBytes := some length } }
    | none => do
      db.ensureKvCapacity mutation.uid mutation.exact.length 1
      let length ← nodeUsage mutation.exact
      let nodes ← okOr .constraint (insertRow KvNodeRow.place db.nodes
        ⟨mutation.uid, mutation.id, mutation.nodeType, mutation.exact, some length⟩)
      { db with nodes }.account mutation.uid mutation.exact.length 1 0 0

/-- What the new root follows: the same root again changes nothing, and another one has the next
    version. -/
def rootFollows (existing : Option KvRootRow) (mutation : KvRootMutation) : Except Error Bool :=
  match existing with
  | some row =>
    if row.version = mutation.version ∧ row.exact = mutation.exact then .ok false
    else if row.version.toNat + 1 = mutation.version.toNat then .ok true
    else .error .kvConflict
  | none => if mutation.version = 1 then .ok true else .error .kvConflict

def putKvRoot (mutation : KvRootMutation) : Except Error Unit × KvDatabase :=
  if mutation.uid.length ≠ 33 ∨ mutation.version = 0 ∨ mutation.directoryVersion = 0 ∨
      mutation.keyGeneration = 0 ∨ mutation.keyRole > 3 ∨ mutation.exact = [] ∨
      mutation.exact.length > db.config.maximumBlobBytes then
    (.error (.invalid "KV root mutation"), db)
  else db.inNamespace mutation.uid fun db => do
    let existing := db.kvRoot mutation.uid
    let changes ← rootFollows existing mutation
    if !changes then .ok db
    else do
      let directoryVersion ← sqlInteger mutation.directoryVersion
      if !db.directoryExists mutation.uid mutation.directoryId directoryVersion then
        .error .kvConflict
      else do
        let prior := (existing.map (·.exact.length)).getD 0
        db.ensureKvCapacity mutation.uid (mutation.exact.length - prior)
          (if existing.isNone then 1 else 0)
        let version ← sqlInteger mutation.version
        let roots := upsertRow KvRootRow.uid db.roots
          ⟨mutation.uid, version, mutation.directoryId, directoryVersion, mutation.exact⟩
        { db with roots }.account mutation.uid ((mutation.exact.length : Int) - prior)
          (if existing.isNone then 1 else 0) 0 0

/-! ## Entries -/

/-- The triggers on `kv_dirent_heads` rebuild the current row of the entry. -/
def projectHead : KvDatabase :=
  { db with
    current := (db.current.filter fun row => row.place ≠ place) ++
      (((db.kvDirent place).filter (·.isLive)).map (·.toCurrent)).toList }

/-- The trigger on `kv_dirents`: a version that the head already names is projected. -/
def projectHistory (row : KvDirentRow) : KvDatabase :=
  if db.direntVersion row.place = some row.version ∧ row.isLive then
    { db with current := upsertRow KvCurrentRow.place db.current row.toCurrent }
  else db

/-- The insert into `kv_dirents` and the insert or update of `kv_dirent_heads`, with their
    triggers. -/
def insertDirent (row : KvDirentRow) : Except Error KvDatabase := do
  let _ ← sqlInteger row.version
  let _ ← sqlInteger row.creationTime
  let added := if (db.direntVersion row.place).isNone then 1 else 0
  let dirents ← okOr .constraint (insertRow KvDirentRow.versionPlace db.dirents row)
  let db ← ({ db with dirents }.projectHistory row).account row.uid row.exact.length 1 0 0
  let direntHeads := upsertRow KvDirentHead.place db.direntHeads
    ⟨row.uid, row.parent, row.id, row.version⟩
  ({ db with direntHeads }.projectHead row.place).account row.uid 0 0 0 added

variable (callerRole : Role)

/-- A caller below owner may not replace an entry whose write role is above theirs. -/
def requireWriteRole (existing : Option KvDirentRow) : Except Error Unit :=
  if callerRole < .owner then
    match existing with
    | none => .ok ()
    | some row =>
      match KvDirent.decode row.exact with
      | .error _ => .error (.invalid "stored KV dirent")
      | .ok stored => if callerRole < stored.writeRole then .error .kvPermission else .ok ()
  else .ok ()

/-- The version after the last one. -/
def expectedVersion (existing : Option KvDirentRow) : Except Error UInt64 :=
  match existing with
  | none => .ok 1
  | some row => okOr .integerRange (checkedAddU64 row.version 1)

/-- One mutation of a batch, with the entry as it was before the batch. -/
def putDirent (db : KvDatabase) (step : KvDirentMutation × Option KvDirentRow) :
    Except Error KvDatabase := do
  let mutation := step.1
  requireWriteRole callerRole step.2
  let directoryVersion ← sqlInteger mutation.directoryVersion
  if !db.directoryExists uid mutation.parent directoryVersion ∨
      !db.nodeReferenceExists uid mutation.node then .error .kvConflict
  else do
    let expected ← expectedVersion step.2
    if mutation.version ≠ expected then .error .kvConflict
    else if mutation.node.kind ≠ 0 ∧
        db.nameConflict (uid, mutation.parent, mutation.id) mutation.nameMac then
      .error .kvConflict
    else db.insertDirent (mutation.row uid)

/-- The checks of a batch that look at nothing stored. -/
def batchIsValid (config : KvConfig) (uid : List UInt8) (mutations : List KvDirentMutation) :
    Except Error Unit :=
  if uid.length ≠ 33 ∨ mutations = [] ∨ mutations.length > 64 then
    .error (.invalid "KV dirent mutation batch")
  else if (mutations.any fun mutation => mutation.version = 0 ∨ mutation.directoryVersion = 0 ∨
        mutation.exact = [] ∨ mutation.exact.length > config.maximumBlobBytes ∨
        mutation.exact.length > config.maximumKvDirentBytes) ∨
      ¬ (mutations.map fun mutation => (mutation.parent, mutation.id)).Nodup then
    .error (.invalid "KV dirent mutation")
  else .ok ()

variable (mutations : List KvDirentMutation)

/-- The entries that a batch is about, as they are before it. -/
def existingHeads : List (KvDirentMutation × Option KvDirentRow) :=
  mutations.map fun mutation => (mutation, db.kvDirent (uid, mutation.parent, mutation.id))

/-- The transaction of `put_kv_dirents`. -/
def putDirents (db : KvDatabase) : Except Error KvDatabase :=
  let steps := db.existingHeads uid mutations
  if steps.all fun step => step.2.any fun row =>
      row.version = step.1.version ∧ row.exact = step.1.exact then .ok db
  else do
    db.requireVersions uid precondition
    db.ensureKvCapacity uid (mutations.map (·.exact.length)).sum mutations.length
    db.ensureKvTreeCapacity uid 0 (steps.filter (·.2.isNone)).length
    steps.foldlM (putDirent uid callerRole) db

def putKvDirents : Except Error Unit × KvDatabase :=
  match batchIsValid db.config uid mutations with
  | .error error => (.error error, db)
  | .ok () => db.inNamespace uid (putDirents uid precondition callerRole mutations)

/-! ## Listing -/

/-- A blob of a fixed length compares as the number it is. -/
def blobOrder {n : Nat} (blob : FixedBytes n) : Nat := ofBE blob.bytes

/-- A current row with its entry, if that is stored. -/
def joinDirent (row : KvCurrentRow) : Option (KvCurrentRow × KvDirentRow) :=
  (db.dirents.find? fun dirent => dirent.versionPlace = (row.place, row.version)).map (row, ·)

/-- `ORDER BY` a first column, then `dirent_id`. -/
def OrderedBy (column : KvCurrentRow → Nat) (a b : KvCurrentRow × KvDirentRow) : Prop :=
  column a.1 < column b.1 ∨ column a.1 = column b.1 ∧ blobOrder a.1.id ≤ blobOrder b.1.id

instance (column : KvCurrentRow → Nat) : DecidableRel (OrderedBy column) :=
  fun _ _ => inferInstanceAs (Decidable (_ ∨ _))

variable (parent : FixedBytes 16)

/-- The current rows of a directory with their entries. -/
def directoryRows : List (KvCurrentRow × KvDirentRow) :=
  (db.current.filter fun row => row.uid = uid ∧ row.parent = parent).filterMap db.joinDirent

variable (cursor : Option KvListCursor)

/-- The rows of a directory that a listing selects, in its order. -/
def listRows : List (KvCurrentRow × KvDirentRow) :=
  let rows := db.directoryRows uid parent
  match cursor with
  | none => rows.insertionSort (OrderedBy fun row => blobOrder row.nameMac)
  | some (.mac mac) =>
    (rows.filter fun row => blobOrder mac < blobOrder row.1.nameMac).insertionSort
      (OrderedBy fun row => blobOrder row.nameMac)
  | some (.time time) =>
    (rows.filter fun row => time ≤ row.1.creationTime).insertionSort
      (OrderedBy fun row => row.creationTime.toNat)

/-- A time is bound as a signed number. -/
def cursorFits : KvListCursor → Except Error Unit
  | .mac _ => .ok ()
  | .time time => (sqlInteger time).map fun _ => ()

/-- The page of a listing, with the rows it was made of. -/
def kvListPage (limit : Nat) : Except Error (List (KvCurrentRow × KvDirentRow)) :=
  if limit = 0 ∨ limit > 4096 then .error (.invalid "KV list limit")
  else do
    let _ ← cursor.mapM cursorFits
    .ok ((db.listRows uid parent cursor).take limit)

def kvList (limit : Nat) : Except Error (List StoredKvDirent) :=
  (db.kvListPage uid parent cursor limit).map fun rows =>
    rows.map fun row => ⟨row.2.exact, row.1.node⟩

end

end KvDatabase

end Foks.ServerDb
