/-
  The chat store of the server (`foks-server-db`, `realtime/*.rs`, and the tables and triggers of
  `schema/realtime.sql` and `realtime_invalidation.sql`).

  A channel belongs to a team, and the roster of the team says who reads and writes it. Every
  reader has an inbox: a version, and one row for each channel with the version at which the row
  changed last. A new channel or message stamps the rows of all readers at once (`stamp`). A change
  of the roster does not touch the rows; triggers mark the inbox of the member as dirty, and pages
  of `rtReconcileInboxPage` walk its channels again in the order of their identifiers.

  Rows hold decoded values. A function that fails leaves the database as it was: its transaction is
  rolled back. All actors and inboxes are of the host of the database and of the app `Chat`.
-/
import Foks.Proto.Realtime
import Foks.ServerDb.Database

namespace Foks.ServerDb

open Foks.Lib Foks.Proto

/-! ## Limits -/

def channelsPerTeam : Nat := 256

def fanoutMembers : Nat := 1024

def channelConfigurationBytes : Nat := 16 * 1024

def channelActivityBytes : Nat := 256

def storedMessageBytes : Nat := rtMaxRequestBytes

def defaultRecentsRows : Nat := 100

def defaultInboxRows : Nat := 100

def inboxRows : Nat := 1000

def inboxScanRows : Nat := 4096

def inboxReconcileChannels : Nat := 4096

def historyRows : Nat := 1000

def historyMessageBytes : Nat := 8 * 1024 * 1024

/-! ## Tables -/

structure RtDeviceRow where
  deviceId : List UInt8
  uid : List UInt8
  active : Bool
  roleType : Int64
  visibility : Int64
  subkeyId : Option (List UInt8)
  deriving DecidableEq

structure RtTeamRow where
  teamId : List UInt8
  teamKind : UInt64
  hostId : List UInt8
  deriving DecidableEq

/-- A row of `team_members`, with the columns that chat reads. -/
structure RtMemberRow where
  teamId : List UInt8
  partyId : List UInt8
  scopedHostId : Option (List UInt8)
  sourceRoleType : Int64
  sourceVisibility : Int64
  roleType : Int64
  visibility : Int64
  deriving DecidableEq

structure RtTeamKeyRow where
  teamId : List UInt8
  roleType : Int64
  visibility : Int64
  generation : UInt64
  deriving DecidableEq

structure RtChannelSetRow where
  teamId : List UInt8
  version : UInt64
  mtime : UInt64
  deriving DecidableEq

/-- A row of `rt_channels`: `metadata` is as it was created, the activity stands beside it. -/
structure RtChannelRow where
  metadata : RtChannelMetadata
  format : Nat
  lastMessage : Option RtLastMessage
  lastSequence : UInt64
  deriving DecidableEq

structure RtMessageRow where
  messageId : RtMessageId
  channelId : RtChannelId
  sequence : UInt64
  sender : List UInt8
  envelope : List UInt8
  message : RtMessage
  insertTime : UInt64
  deriving DecidableEq

structure RtInboxRow where
  uid : List UInt8
  version : UInt64
  reconcileDirty : Bool
  reconcileAfter : Option RtChannelId
  deriving DecidableEq

structure RtUserChannelRow where
  uid : List UInt8
  channelId : RtChannelId
  inboxVersion : UInt64
  readThrough : UInt64
  accessible : Bool
  deriving DecidableEq

/-- What the single sign-on policy decides for a user at a time is given. -/
structure RtDatabase where
  host : List UInt8
  permitsNative : List UInt8 → UInt64 → Bool
  users : List (List UInt8)
  devices : List RtDeviceRow
  teams : List RtTeamRow
  teamMembers : List RtMemberRow
  teamKeys : List RtTeamKeyRow
  channelSets : List RtChannelSetRow
  channels : List RtChannelRow
  messages : List RtMessageRow
  inboxes : List RtInboxRow
  userChannels : List RtUserChannelRow

def RtChannelRow.id (row : RtChannelRow) : RtChannelId := row.metadata.id

def RtChannelRow.team (row : RtChannelRow) : List UInt8 := row.metadata.team.entity.bytes

def RtUserChannelRow.place (row : RtUserChannelRow) : List UInt8 × RtChannelId :=
  (row.uid, row.channelId)

/-- A blob of sixteen bytes compares as the number it is. -/
def channelOrder (id : RtChannelId) : Nat := ofBE id.bytes

structure RealtimeActor where
  uid : List UInt8
  credential : List UInt8
  certificateExpiresAt : UInt64

/-- The result of a write, and the users to wake. -/
structure RealtimeCommit (α : Type) where
  value : α
  wake : List (List UInt8)

/-- A wire value that does not encode. -/
def protoValue {α : Type} (result : Except Proto.Error α) : Except Error α :=
  result.mapError fun _ => .invalid "realtime wire value"

/-- `checked_add(1)` on a signed column. -/
def sqlNext (value : UInt64) : Except Error UInt64 :=
  if value.toNat + 1 < 2 ^ 63 then .ok (value + 1) else .error .integerRange

/-! ## Policy -/

/-- The role of two stored columns. -/
def storedRole (kind visibility : Int64) : Except Error Role :=
  if kind = 1 then (okOr .integerRange (int16? visibility)).map .member
  else if kind = 2 ∧ visibility = 0 then .ok .admin
  else if kind = 3 ∧ visibility = 0 then .ok .owner
  else .error (.invalid "stored realtime role")

/-- The lowest role that a channel can have. -/
def minRole : Role := .member (-0x4000)

def floor (md : RtChannelMetadata) : Except Error Role :=
  match md.tier with
  | .bottom => .ok minRole
  | .admin => .ok .admin
  | .none => .error (.invalid "channel tier")

/-- One policy for discovery, history, writes and fanout. -/
structure ChannelPolicy where
  discover : Role
  read : Role
  write : Role
  deriving DecidableEq

namespace ChannelPolicy

def new (md : RtChannelMetadata) : Except Error ChannelPolicy :=
  (floor md).map fun discover => ⟨discover, md.roles.read, md.roles.write⟩

section

variable (policy : ChannelPolicy) (role : Role)

def canDiscover : Bool := policy.discover ≤ role

def canRead : Bool :=
  policy.canDiscover role && policy.read ≤ role

def requireRead : Except Error Unit :=
  if policy.canRead role then .ok () else .error .authorizationChanged

def requireWrite : Except Error Unit :=
  if policy.canRead role && policy.write ≤ role then .ok () else .error .authorizationChanged

/-- What a role sees of a channel. -/
def project (md : RtChannelMetadata) : Option RtChannelMetadata :=
  if !policy.canDiscover role then none
  else if !policy.canRead role then
    some { md with description := none, lastMessage := none, mtime := md.ctime, unreadable := true }
  else some md

end

end ChannelPolicy

/-- An entry of the roster that stands for a user of the host as an owner of themselves. -/
def RtMemberRow.isLocal (host : List UInt8) (row : RtMemberRow) : Bool :=
  row.sourceRoleType = 3 && row.sourceVisibility = 0 &&
    (row.scopedHostId.isNone || row.scopedHostId = some host)

/-- `project_channel`: the configuration with the last activity. -/
def RtChannelRow.project (row : RtChannelRow) : RtChannelMetadata :=
  match row.lastMessage with
  | some last => { row.metadata with mtime := last.insertTime, lastMessage := some last }
  | none => row.metadata

namespace RtDatabase

section

variable (db : RtDatabase) (actor : RealtimeActor)

def hasCredential : Bool :=
  db.devices.any fun row => row.uid = actor.uid && row.active && row.roleType = 3 &&
    row.visibility = 0 && (row.deviceId = actor.credential || row.subkeyId = some actor.credential)

def checkActor (now : UInt64) : Except Error Unit :=
  if !db.permitsNative actor.uid (now / 1000) then .error .authorizationChanged
  else if actor.certificateExpiresAt ≤ now ∨ actor.uid.head? ≠ some entityUser ∨
      (actor.credential.head? ≠ some entityDevice ∧ actor.credential.head? ≠ some entitySubkey) then
    .error .authorizationChanged
  else if !db.hasCredential actor then .error .authorizationChanged
  else .ok ()

/-- A named team of the host. -/
def isChatTeam (team : List UInt8) : Bool :=
  db.teams.any fun row => row.teamId = team && row.teamKind = 3 && row.hostId = db.host

/-- The roster entry that `membership_role` selects. -/
def memberRow? (uid team : List UInt8) : Option RtMemberRow :=
  db.teamMembers.find? fun row => row.teamId = team && db.isChatTeam team && row.partyId = uid &&
    row.isLocal db.host

def membershipRole (uid team : List UInt8) : Except Error (Option Role) :=
  match db.memberRow? uid team with
  | some row => (storedRole row.roleType row.visibility).map some
  | none => .ok none

def authorize (team : List UInt8) (now : UInt64) : Except Error Role := do
  db.checkActor actor now
  let role ← db.membershipRole actor.uid team
  okOr .authorizationChanged role

/-- The key must be of the last generation of its role. -/
def currentKey (team : List UInt8) (key : RoleAndGeneration) : Except Error Unit :=
  let generations := (db.teamKeys.filter fun row => row.teamId = team ∧
    row.roleType = key.role.protocolValue.toInt64 ∧
    row.visibility = (key.role.visibility.getD 0).toInt64).map (·.generation)
  if key.generation = 0 then .error .rtRace
  else do
    let generation ← sqlInteger key.generation
    if generations.max? ≠ some generation then .error .rtRace else .ok ()

def channelRow? (id : RtChannelId) : Option RtChannelRow :=
  db.channels.find? fun row => row.id = id

def channel (db : RtDatabase) (id : RtChannelId) : Except Error RtChannelMetadata :=
  okOr (.notFound "realtime channel") ((db.channelRow? id).map (·.project))

def requireBasic (id : RtChannelId) : Except Error Unit :=
  match db.channelRow? id with
  | none => .error .noRows
  | some row => if row.format ≠ 1 then .error .rtUnsupportedFormat else .ok ()

def requireRead (db : RtDatabase) (actor : RealtimeActor) (md : RtChannelMetadata) (now : UInt64) :
    Except Error Unit := do
  let access ← db.authorize actor md.team.entity.bytes now
  let policy ← ChannelPolicy.new md
  policy.requireRead access

/-! ## Inbox rows -/

variable (uid : List UInt8)

def inbox? : Option RtInboxRow :=
  db.inboxes.find? fun row => row.uid = uid

/-- The version of an inbox, zero when there is none. -/
def inboxHead : UInt64 :=
  ((db.inbox? uid).map (·.version)).getD 0

def userChannel? (id : RtChannelId) : Option RtUserChannelRow :=
  db.userChannels.find? fun row => row.place = (uid, id)

def updateInbox (change : RtInboxRow → RtInboxRow) : RtDatabase :=
  { db with inboxes := db.inboxes.map fun row => if row.uid = uid then change row else row }

def putUserChannel (row : RtUserChannelRow) : RtDatabase :=
  { db with userChannels := upsertRow RtUserChannelRow.place db.userChannels row }

/-- A new inbox is dirty. It needs a user. -/
def ensureInbox : Except Error RtDatabase :=
  if (db.inbox? uid).isSome then .ok db
  else if db.users.contains uid then .ok { db with inboxes := db.inboxes ++ [⟨uid, 0, true, none⟩] }
  else .error .constraint

def nextInboxVersion : Except Error (UInt64 × RtDatabase) := do
  let db ← db.ensureInbox uid
  let next ← sqlNext (db.inboxHead uid)
  .ok (next, db.updateInbox uid fun row => { row with version := next })

/-! ## Fanout -/

def recipient (policy : ChannelPolicy) (row : RtMemberRow) : Except Error (Option (List UInt8)) :=
  (storedRole row.roleType row.visibility).map fun role =>
    if row.partyId.head? = some entityUser && policy.canRead role then some row.partyId else none

variable (md : RtChannelMetadata)

/-- The local entries of a team's roster, one more than may be scanned. -/
def fanoutRows : List RtMemberRow :=
  ((db.teamMembers.filter fun row => row.teamId = md.team.entity.bytes && row.isLocal db.host)
    |>.insertionSort fun a b => ofBE a.partyId ≤ ofBE b.partyId).take (fanoutMembers + 1)

def recipients : Except Error (List (List UInt8)) := do
  let rows := db.fanoutRows md
  let policy ← ChannelPolicy.new md
  let found ← (rows.take fanoutMembers).mapM (recipient policy)
  if fanoutMembers < rows.length then .error (.capacity "realtime team fanout")
  else .ok found.reduceOption

/-- The sender has read what they sent. -/
def senderRead (sender : List UInt8) (sequence : UInt64) (uid : List UInt8) :
    Except Error UInt64 :=
  if uid = sender then sqlInteger sequence else .ok 0

/-- One round of `stamp`. -/
def stampUser (channel : RtChannelId) (sender : List UInt8) (sequence : UInt64) (db : RtDatabase)
    (uid : List UInt8) : Except Error RtDatabase := do
  let (next, db) ← db.nextInboxVersion uid
  let read ← senderRead sender sequence uid
  let before := ((db.userChannel? uid channel).map (·.readThrough)).getD 0
  .ok (db.putUserChannel ⟨uid, channel, next, max before read, true⟩)

def stamp (sequence : UInt64) : Except Error (List (List UInt8) × RtDatabase) := do
  let uids ← db.recipients md
  let db ← uids.foldlM (stampUser md.id actor.uid sequence) db
  .ok (uids, db)

/-! ## Channels -/

variable (arg : RtCreateChannelArgument)

/-- What a new channel has to be before its roles are looked at. -/
def isBlank : Bool :=
  let md := arg.metadata
  md.app = .chat && md.id ≠ .replicate 16 0 && md.sequence = 1 && md.lastMessage.isNone &&
    !md.unreadable && md.updatedAt = arg.setVersion && arg.setVersion ≠ 0

/-- The roles of a new channel, over the floor of its tier, and its boxes. -/
def hasRoles (lowest : Role) : Bool :=
  lowest ≤ md.roles.read && md.roles.read ≤ md.roles.write && md.name.key.role = lowest &&
    16 ≤ md.name.boxed.ciphertext.length &&
    md.description.all fun box => box.key.role = md.roles.read && 16 ≤ box.boxed.ciphertext.length

def checkInitial : Except Error Unit :=
  if !isBlank arg then .error (.invalid "initial realtime channel metadata")
  else do
    let lowest ← floor arg.metadata
    if !hasRoles arg.metadata lowest then .error (.invalid "initial realtime channel metadata")
    else .ok ()

def checkKeys : Except Error Unit := do
  db.currentKey md.team.entity.bytes md.name.key
  (md.description.map fun box => db.currentKey md.team.entity.bytes box.key).getD (.ok ())

/-- The rows of a new channel, if it has its place and the set of the team its next version. -/
def insertChannel (setVersion : UInt64) (format : Nat) : Except Error RtDatabase := do
  let team := md.team.entity.bytes
  if db.channels.any fun row => row.id = md.id || row.id.short = md.id.short then
    .error (.duplicate "realtime channel")
  else do
    let old := ((db.channelSets.find? fun row => row.teamId = team).map (·.version)).getD 0
    let next ← sqlNext old
    let version ← sqlInteger setVersion
    if version ≠ next then .error .rtRace
    else if channelsPerTeam ≤ (db.channels.filter fun row => row.team = team).length then
      .error (.capacity "realtime channels")
    else do
      let mtime ← sqlInteger md.mtime
      .ok { db with
        channelSets := upsertRow RtChannelSetRow.teamId db.channelSets ⟨team, next, mtime⟩
        channels := db.channels ++ [⟨md, format, none, 0⟩] }

def rtCreateChannelWithFormat (now : UInt64) (format : Nat) :
    Except Error (RealtimeCommit Unit × RtDatabase) := do
  if format ≠ 1 ∧ format ≠ 2 then .error (.invalid "realtime channel format")
  else do
    checkInitial arg
    let md := { arg.metadata with ctime := now / 1000, mtime := now / 1000 }
    let exact ← protoValue md.encoded
    if channelConfigurationBytes < exact.length then .error (.capacity "realtime channel metadata")
    else do
      let access ← db.authorize actor md.team.entity.bytes now
      let policy ← ChannelPolicy.new md
      policy.requireWrite access
      db.checkKeys md
      let db ← db.insertChannel md arg.setVersion format
      let (wake, db) ← db.stamp actor md 0
      .ok (⟨(), wake⟩, db)

def rtCreateChannel (now : UInt64) : Except Error (RealtimeCommit Unit × RtDatabase) :=
  db.rtCreateChannelWithFormat actor arg now 1

/-! ## Messages -/

variable (send : RtSend)

/-- A Basic message with an encrypted body. -/
def checkSend : Except Error RtMessageBox := do
  protoValue send.validate
  match send.wrapper with
  | .plaintext _ => .error (.invalid "encrypted realtime message required")
  | .encrypted box =>
    if send.metadata.kind ≠ .basic ∨ send.metadata.id = .replicate 16 0 ∨
        box.ciphertext.length < 16 ∨ send.metadata.furtherUserAttribution.isSome ∨
        ¬ (send.metadata.previousSequence = 0 ↔ send.metadata.previousId = .replicate 16 0) then
      .error (.invalid "Basic realtime message metadata")
    else .ok box

/-- `expected_previous_sequence` is a precondition, not a part of what is sent. -/
def identity : RtSend := { send with expectedPreviousSequence := 0 }

/-- The channel of a send, when the actor may write to it with the role of the box. -/
def sendChannel (box : RtMessageBox) (now : UInt64) : Except Error RtChannelRow := do
  let row ← okOr (.notFound "realtime channel")
    (db.channels.find? fun row => row.id.short = send.channel)
  let md := row.project
  let access ← db.authorize actor md.team.entity.bytes now
  let policy ← ChannelPolicy.new md
  policy.requireWrite access
  db.requireBasic md.id
  if box.key.role ≠ md.roles.read then .error (.invalid "message encryption role") else .ok row

def messageAt? (id : RtChannelId) (sequence : UInt64) : Option RtMessageRow :=
  db.messages.find? fun row => row.channelId = id && row.sequence = sequence

def checkExpected (last : UInt64) : Except Error Unit :=
  if send.expectedPreviousSequence = 0 then .ok ()
  else do
    let expected ← sqlInteger send.expectedPreviousSequence
    if expected ≠ last then .error .rtMessageOrder else .ok ()

def checkPrevious (id : RtChannelId) (send : RtSend) : Except Error Unit :=
  if send.metadata.previousSequence = 0 then .ok ()
  else do
    let previous ← sqlInteger send.metadata.previousSequence
    if (db.messageAt? id previous).map (·.messageId) ≠ some send.metadata.previousId then
      .error .rtMessageOrder
    else .ok ()

/-- The row of a message of the actor. -/
def messageRow (id : RtChannelId) (envelope : List UInt8) (sequence insertTime : UInt64) :
    Except Error RtMessageRow := do
  let entity ← protoValue (EntityId.fromBytes actor.uid)
  let sender ← protoValue (RtPartyId.new entity)
  let message : RtMessage := ⟨send.metadata, send.wrapper, sequence, some sender, insertTime⟩
  let exact ← protoValue message.encoded
  if storedMessageBytes < envelope.length ∨ storedMessageBytes < exact.length then
    .error (.capacity "realtime message")
  else do
    let sequence ← sqlInteger sequence
    let insertTime ← sqlInteger insertTime
    .ok ⟨send.metadata.id, id, sequence, actor.uid, envelope, message, insertTime⟩

/-- The message row, and the activity of its channel. -/
def insertMessage (row : RtMessageRow) : Except Error RtDatabase := do
  if !db.users.contains row.sender then .error .constraint
  else do
    let last : RtLastMessage :=
      ⟨row.sequence, row.message.metadata.kind, row.insertTime, row.message.sender, none⟩
    let activity ← protoValue last.encoded
    if channelActivityBytes < activity.length then .error (.capacity "realtime channel activity")
    else .ok { db with
      messages := db.messages ++ [row]
      channels := db.channels.map fun channel =>
        if channel.id = row.channelId then
          { channel with lastSequence := row.sequence, lastMessage := some last }
        else channel }

/-- A message that is not stored yet goes to the end of its channel. -/
def appendMessage (box : RtMessageBox) (channel : RtChannelRow) (envelope : List UInt8)
    (now : UInt64) : Except Error (RealtimeCommit ChatSendReceipt × RtDatabase) := do
  db.currentKey channel.team box.key
  checkExpected send channel.lastSequence
  db.checkPrevious channel.id send
  let sequence ← sqlNext channel.lastSequence
  let row ← messageRow actor send channel.id envelope sequence (now / 1000)
  let db ← db.insertMessage row
  let (wake, db) ← db.stamp actor channel.project sequence
  .ok (⟨⟨sequence, now / 1000⟩, wake⟩, db)

/-- A message that is stored is confirmed again, if it is the same one. -/
def confirmMessage (channel : RtChannelRow) (envelope : List UInt8) (old : RtMessageRow) :
    Except Error (RealtimeCommit ChatSendReceipt × RtDatabase) :=
  if old.channelId ≠ channel.id ∨ old.sender ≠ actor.uid ∨ old.envelope ≠ envelope then
    .error .operationConflict
  else .ok (⟨⟨old.sequence, old.insertTime⟩, []⟩, db)

def storeMessage (box : RtMessageBox) (channel : RtChannelRow) (envelope : List UInt8)
    (now : UInt64) : Except Error (RealtimeCommit ChatSendReceipt × RtDatabase) :=
  match db.messages.find? fun row => row.messageId = send.metadata.id with
  | some old => db.confirmMessage actor channel envelope old
  | none => db.appendMessage actor send box channel envelope now

def rtSend (now : UInt64) : Except Error (RealtimeCommit ChatSendReceipt × RtDatabase) := do
  let box ← checkSend send
  let channel ← db.sendChannel actor send box now
  let envelope ← protoValue (identity send).encoded
  db.storeMessage actor send box channel envelope now

/-! ## Reconciliation -/

inductive RealtimeReconcileState where
  | missing
  | dirty
  | incomplete
  | clean
  deriving DecidableEq

inductive RealtimeReconcileOutcome where
  | alreadyClean
  | pageComplete
  | pageIncomplete
  deriving DecidableEq

structure RealtimeReconcileReport where
  outcome : RealtimeReconcileOutcome
  restarted : Bool
  candidates : Nat
  accessibilityChanges : Nat
  deriving DecidableEq

def reconcileState (row : RtInboxRow) : RealtimeReconcileState :=
  if row.reconcileDirty then .dirty
  else if row.reconcileAfter.isSome then .incomplete
  else .clean

/-- `inbox_state`, with the cursor. -/
def inboxState : UInt64 × RealtimeReconcileState × Option RtChannelId :=
  match db.inbox? uid with
  | none => (0, .missing, none)
  | some row => (row.version, reconcileState row, row.reconcileAfter)

def removeUserChannel (id : RtChannelId) : Except Error (Bool × RtDatabase) :=
  match db.userChannel? uid id with
  | none => .ok (false, db)
  | some row =>
    if !row.accessible then .ok (false, db)
    else do
      let (version, db) ← db.nextInboxVersion uid
      .ok (true, db.putUserChannel { row with inboxVersion := version, accessible := false })

def insertUserChannel (id : RtChannelId) (readThrough : UInt64) :
    Except Error (Bool × RtDatabase) :=
  match db.userChannel? uid id with
  | none => do
    let (version, db) ← db.nextInboxVersion uid
    let readThrough ← sqlInteger readThrough
    .ok (true, db.putUserChannel ⟨uid, id, version, readThrough, true⟩)
  | some row =>
    if row.accessible then .ok (false, db)
    else do
      let (version, db) ← db.nextInboxVersion uid
      let readThrough ← sqlInteger readThrough
      .ok (true, db.putUserChannel { row with
        inboxVersion := version
        readThrough := max row.readThrough readThrough
        accessible := true })

/-- A channel of a team with the user in its roster, or one that the user's rows still open. -/
def isCandidate (channel : RtChannelRow) : Bool :=
  (db.teamMembers.any fun row => row.partyId = uid && row.teamId = channel.team) ||
    (db.userChannels.any fun row => row.uid = uid && row.channelId = channel.id && row.accessible)

/-- The channels behind a cursor that a walk looks at, in order. -/
def candidates (after : Option RtChannelId) : List RtChannelRow :=
  (db.channels.filter fun channel => db.isCandidate uid channel &&
      after.all fun cursor => channelOrder cursor < channelOrder channel.id)
    |>.insertionSort fun a b => channelOrder a.id ≤ channelOrder b.id

def isReadable : Except Error Bool := do
  match ← db.membershipRole uid md.team.entity.bytes with
  | some access => (ChannelPolicy.new md).map (·.canRead access)
  | none => .ok false

def setUserChannel (id : RtChannelId) (readable : Bool) : Except Error (Bool × RtDatabase) :=
  if readable then db.insertUserChannel uid id 0 else db.removeUserChannel uid id

/-- One round of the walk, with the number of changes. -/
def reconcileChannel (state : Nat × RtDatabase) (channel : RtChannelRow) :
    Except Error (Nat × RtDatabase) := do
  let readable ← state.2.isReadable uid channel.project
  let (changed, db) ← state.2.setUserChannel uid channel.id readable
  .ok (state.1 + changed.toNat, db)

/-- A page of the walk from a cursor. -/
def reconcileFrom (restarted : Bool) (after : Option RtChannelId) (pageSize : Nat) :
    Except Error (RealtimeCommit RealtimeReconcileReport × RtDatabase) := do
  let found := (db.candidates uid after).take (pageSize + 1)
  let incomplete := pageSize < found.length
  let page := found.take pageSize
  let cursor := if incomplete then page.getLast?.map (·.id) else none
  let (changes, db) ← page.foldlM (reconcileChannel uid) (0, db)
  let db := db.updateInbox uid fun row =>
    { row with reconcileDirty := false, reconcileAfter := cursor }
  .ok (⟨⟨if incomplete then .pageIncomplete else .pageComplete, restarted, found.length, changes⟩,
    if changes ≠ 0 then [uid] else []⟩, db)

def rtReconcileInboxPage (now : UInt64) (pageSize : Nat) :
    Except Error (RealtimeCommit RealtimeReconcileReport × RtDatabase) := do
  if pageSize = 0 ∨ inboxReconcileChannels < pageSize then
    .error (.invalid "realtime reconciliation page size")
  else do
    db.checkActor actor now
    let db ← db.ensureInbox actor.uid
    match db.inboxState actor.uid with
    | (_, .clean, _) => .ok (⟨⟨.alreadyClean, false, 0, 0⟩, []⟩, db)
    | (_, .dirty, _) => db.reconcileFrom actor.uid true none pageSize
    | (_, _, cursor) => db.reconcileFrom actor.uid false cursor pageSize

def rtReconcileInbox (now : UInt64) :
    Except Error (RealtimeCommit RealtimeReconcileReport × RtDatabase) :=
  db.rtReconcileInboxPage actor now inboxReconcileChannels

/-! ## Read pointers -/

/-- The row of the reader, moved to a message. -/
def moveReadThrough (read : RtReadThrough) : Except Error (Bool × RtDatabase) :=
  match db.userChannel? uid read.channel with
  | some row =>
    if !row.accessible then db.insertUserChannel uid read.channel read.sequence
    else if row.readThrough < read.sequence then do
      let (version, db) ← db.nextInboxVersion uid
      let sequence ← sqlInteger read.sequence
      .ok (true, db.putUserChannel { row with inboxVersion := version, readThrough := sequence })
    else .ok (false, db)
  | none => db.insertUserChannel uid read.channel read.sequence

def rtReadThrough (read : RtReadThrough) (now : UInt64) :
    Except Error (RealtimeCommit Unit × RtDatabase) := do
  if read.sequence = 0 then .error (.invalid "realtime read sequence")
  else do
    let md ← db.channel read.channel
    db.requireRead actor md now
    db.requireBasic md.id
    let sequence ← sqlInteger read.sequence
    if (db.messageAt? read.channel sequence).isNone then .error (.notFound "realtime message")
    else do
      let (changed, db) ← db.moveReadThrough actor.uid read
      .ok (⟨(), if changed then [actor.uid] else []⟩, db)

/-! ## Changed threads -/

/-- The rows between two versions that the user can reach, in the order of their versions. -/
def changedRows (since head : UInt64) : List RtUserChannelRow :=
  ((db.userChannels.filter fun row => row.uid = uid && row.accessible &&
      (db.channelRow? row.channelId).any (fun channel => channel.format = 1) &&
      since < row.inboxVersion && row.inboxVersion ≤ head)
    |>.insertionSort fun a b => a.inboxVersion ≤ b.inboxVersion).take (inboxScanRows + 1)

/-- What the user is told about the channel of a row, if they may read it now. -/
def inboxChannel (row : RtUserChannelRow) : Except Error (Option RtInboxChannel) := do
  let md ← db.channel row.channelId
  match ← db.membershipRole uid md.team.entity.bytes with
  | none => .ok none
  | some access => do
    let policy ← ChannelPolicy.new md
    if !policy.canRead access then .ok none
    else do
      let md ← okOr .authorizationChanged (policy.project access md)
      .ok (some ⟨md, row.inboxVersion, row.readThrough, false, false⟩)

/-- The loop over the rows: `room` channels may still be taken and `scan` rows looked at. -/
def collectChannels (db : RtDatabase) (uid : List UInt8) :
    Nat → Nat → List RtUserChannelRow → Except Error (List RtInboxChannel)
  | _, _, [] => .ok []
  | 0, _, _ :: _ => .ok []
  | _ + 1, 0, _ :: _ => .error (.capacity "realtime inbox scan")
  | room + 1, scan + 1, row :: rows => do
    match ← db.inboxChannel uid row with
    | none => db.collectChannels uid (room + 1) scan rows
    | some channel => (db.collectChannels uid room scan rows).map (channel :: ·)

def rtChangedThreads (query : RtChangedThreads) (now : UInt64) : Except Error RtInboxDelta := do
  if query.app ≠ .chat then .error (.invalid "realtime app")
  else do
    db.checkActor actor now
    let head := db.inboxHead actor.uid
    if head ≤ query.since then .ok ⟨head, query.app, []⟩
    else do
      let maximum := if query.maximum = 0 then defaultInboxRows
        else min query.maximum.toNat inboxRows
      let since ← sqlInteger query.since
      let channels ← db.collectChannels actor.uid maximum inboxScanRows
        (db.changedRows actor.uid since head)
      .ok ⟨head, query.app, channels⟩

def rtInboxVersion (now : UInt64) : Except Error UInt64 := do
  db.checkActor actor now
  .ok (db.inboxHead actor.uid)

/-! ## History -/

/-- `Budget`: the rows and bytes of a response so far. -/
structure Budget where
  rows : Nat
  bytes : Nat

def Budget.consume (budget : Budget) (bytes : Nat) : Except Error Budget :=
  if historyRows < budget.rows + 1 ∨ historyMessageBytes < budget.bytes + bytes then
    .error (.capacity "realtime response")
  else .ok ⟨budget.rows + 1, budget.bytes + bytes⟩

/-- A stored message goes into a response. -/
def takeMessage (budget : Budget) (row : RtMessageRow) : Except Error (RtMessage × Budget) := do
  let exact ← protoValue row.message.encoded
  let budget ← budget.consume exact.length
  .ok (row.message, budget)

def takeMessages (budget : Budget) : List RtMessageRow → Except Error (List RtMessage × Budget)
  | [] => .ok ([], budget)
  | row :: rows => do
    let (message, budget) ← takeMessage budget row
    let (messages, budget) ← takeMessages budget rows
    .ok (message :: messages, budget)

/-- The rows of a channel in a range of sequence numbers. -/
def messageRows (id : RtChannelId) (isWithin : UInt64 → Bool) (ascending : Bool) (limit : Nat) :
    List RtMessageRow :=
  ((db.messages.filter fun row => row.channelId = id && isWithin row.sequence)
    |>.insertionSort fun a b =>
      if ascending then a.sequence ≤ b.sequence else b.sequence ≤ a.sequence).take limit

def rtRecents (arg : RtRecents) (now : UInt64) : Except Error (List RtMessage) := do
  let md ← db.channel arg.channel
  db.requireRead actor md now
  db.requireBasic md.id
  let limit := if arg.limit = 0 then defaultRecentsRows else arg.limit.toNat
  if historyRows < limit then .error (.capacity "realtime page")
  else do
    let stopAt ← sqlInteger arg.stopAt
    let (messages, _) ← takeMessages ⟨0, 0⟩
      (db.messageRows arg.channel (fun sequence => stopAt < sequence) false limit)
    .ok messages

/-- The messages of the ranges of a query, each range in its direction. -/
def takeRanges (db : RtDatabase) (id : RtChannelId) (budget : Budget) :
    List RtThreadRange → Except Error (List (List RtMessage) × Budget)
  | [] => .ok ([], budget)
  | range :: ranges => do
    let start ← sqlInteger range.start
    let stop ← sqlInteger range.stop
    let (messages, budget) ← takeMessages budget (db.messageRows id
      (fun sequence => min start stop ≤ sequence && sequence ≤ max start stop) (start ≤ stop)
      (historyRows + 1))
    let (lists, budget) ← db.takeRanges id budget ranges
    .ok (messages :: lists, budget)

/-- The messages with the given sequence numbers that exist. -/
def takeSequences (db : RtDatabase) (id : RtChannelId) (budget : Budget) :
    List UInt64 → Except Error (List RtMessage)
  | [] => .ok []
  | sequence :: sequences => do
    let sequence ← sqlInteger sequence
    match db.messageAt? id sequence with
    | none => db.takeSequences id budget sequences
    | some row => do
      let (message, budget) ← takeMessage budget row
      (db.takeSequences id budget sequences).map (message :: ·)

def rtThread (query : RtThreadQuery) (now : UInt64) : Except Error RtThreadPage := do
  let md ← db.channel query.channel
  db.requireRead actor md now
  db.requireBasic md.id
  if rtMaxCollection < query.ranges.length + query.sequences.length then
    .error (.capacity "realtime query")
  else do
    let (ranges, budget) ← db.takeRanges query.channel ⟨0, 0⟩ query.ranges
    let sequences ← db.takeSequences query.channel budget
      (query.sequences.dedup.insertionSort (· ≤ ·))
    .ok ⟨ranges, sequences⟩

/-! ## Roster changes and their triggers -/

/-- The inbox of a user has to be reconciled from the start. -/
def invalidate : RtDatabase :=
  db.updateInbox uid fun row => { row with reconcileDirty := true, reconcileAfter := none }

def insertMember (row : RtMemberRow) : RtDatabase :=
  { db with teamMembers := db.teamMembers ++ [row] }.invalidate row.partyId

def deleteMember (row : RtMemberRow) : RtDatabase :=
  { db with teamMembers := db.teamMembers.erase row }.invalidate row.partyId

def replaceMember (old new : RtMemberRow) : RtDatabase :=
  { db with teamMembers := db.teamMembers.map fun row => if row = old then new else row }

/-- An update that changes none of the columns here fires no trigger. -/
def updateMember (old new : RtMemberRow) : RtDatabase :=
  if old = new then db.replaceMember old new
  else ((db.replaceMember old new).invalidate old.partyId).invalidate new.partyId

def replaceTeam (old new : RtTeamRow) : RtDatabase :=
  { db with teams := db.teams.map fun row => if row = old then new else row }

/-- A team gets another kind or host: all of its roster is marked. -/
def updateTeam (old new : RtTeamRow) : RtDatabase :=
  if old.hostId = new.hostId ∧ old.teamKind = new.teamKind then db.replaceTeam old new
  else ((db.teamMembers.filter fun row => row.teamId = new.teamId).map (·.partyId)).foldl
    invalidate (db.replaceTeam old new)

end

end RtDatabase

end Foks.ServerDb
