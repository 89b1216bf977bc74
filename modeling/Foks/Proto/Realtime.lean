/-
  The realtime wire values that chat uses (`foks-proto`, `realtime.rs`): channels, messages, sends
  and inbox pages.

  The database keeps these values encoded and reads them back; here its rows hold the values
  themselves, and an encoding is made where the source looks at the bytes: for their length, for
  the envelope that identifies a send, and for the digest of a message. Of the scalar fields only
  the ciphertext and the body of a wrapper can fail to validate.
-/
import Foks.Proto.Kv

namespace Foks.Proto

open Foks.Lib Foks.Snowpack

abbrev RtChannelId := FixedBytes 16

abbrev RtMessageId := FixedBytes 16

def rtMaxWireBytes : Nat := 16 * 1024 * 1024

def rtMaxCollection : Nat := 4096

def rtMaxRequestBytes : Nat := 1024 * 1024

def rtSendOverheadBytes : Nat := 1024

def rtMaxBodyBytes : Nat := rtMaxRequestBytes - rtSendOverheadBytes

/-- The header of the body and the authentication tag take at most 32 bytes. -/
def rtMaxCiphertextBytes : Nat := rtMaxBodyBytes + 32

inductive RtAppId where
  | none
  | chat
  | crdt
  | notification
  deriving DecidableEq

def RtAppId.toUInt64 : RtAppId → UInt64
  | .none => 0
  | .chat => 1
  | .crdt => 2
  | .notification => 3

inductive RtMessageType where
  | none
  | basic
  | edit
  | delete
  | reaction
  | attachment
  | reply
  | system
  | join
  | leave
  deriving DecidableEq

def RtMessageType.toUInt64 : RtMessageType → UInt64
  | .none => 0
  | .basic => 1
  | .edit => 2
  | .delete => 3
  | .reaction => 4
  | .attachment => 5
  | .reply => 6
  | .system => 7
  | .join => 8
  | .leave => 9

inductive RtChannelTier where
  | none
  | bottom
  | admin
  deriving DecidableEq

def RtChannelTier.toUInt64 : RtChannelTier → UInt64
  | .none => 0
  | .bottom => 1
  | .admin => 2

/-! ## Entities -/

structure RtTeamId where
  entity : EntityId
  isTeam : entity.entityType = entityNamedTeam ∨ entity.entityType = entityAdHocTeam
  deriving DecidableEq

structure RtUserId where
  entity : EntityId
  isUser : entity.entityType = entityUser
  deriving DecidableEq

structure RtPartyId where
  entity : EntityId
  isParty : entity.entityType = entityUser ∨ entity.entityType = entityNamedTeam ∨
    entity.entityType = entityAdHocTeam
  deriving DecidableEq

def RtPartyId.new (id : EntityId) : Except Error RtPartyId :=
  if h : id.entityType = entityUser ∨ id.entityType = entityNamedTeam ∨
      id.entityType = entityAdHocTeam then .ok ⟨id, h⟩
  else .error (.entityType id.entityType)

/-! ## Channels -/

structure RtBox where
  key : RoleAndGeneration
  boxed : SecretBox
  deriving DecidableEq

structure RtRolePair where
  read : Role
  write : Role
  deriving DecidableEq

structure RtLastMessage where
  sequence : UInt64
  kind : RtMessageType
  insertTime : UInt64
  sender : Option RtPartyId
  furtherUserAttribution : Option RtUserId
  deriving DecidableEq

structure RtChannelMetadata where
  id : RtChannelId
  team : RtTeamId
  app : RtAppId
  sequence : UInt64
  name : RtBox
  description : Option RtBox
  roles : RtRolePair
  lastMessage : Option RtLastMessage
  ctime : UInt64
  mtime : UInt64
  updatedAt : UInt64
  tier : RtChannelTier
  unreadable : Bool
  deriving DecidableEq

/-- `RtChannelId::short`: the first eight bytes without the highest bit. -/
def RtChannelId.short (id : RtChannelId) : Nat := ofBE (id.bytes.take 8) % 2 ^ 63

structure RtInboxChannel where
  metadata : RtChannelMetadata
  inboxVersion : UInt64
  readThrough : UInt64
  hidden : Bool
  muted : Bool
  deriving DecidableEq

structure RtInboxDelta where
  inboxVersion : UInt64
  app : RtAppId
  channels : List RtInboxChannel
  deriving DecidableEq

structure RtCreateChannelArgument where
  metadata : RtChannelMetadata
  setVersion : UInt64

structure RtChangedThreads where
  app : RtAppId
  since : UInt64
  maximum : UInt64

structure RtReadThrough where
  channel : RtChannelId
  sequence : UInt64

/-! ## Messages -/

structure RtMessageBox where
  ciphertext : List UInt8
  key : RoleAndGeneration
  deriving DecidableEq

inductive RtMessageWrapper where
  | plaintext (body : List UInt8)
  | encrypted (box : RtMessageBox)
  deriving DecidableEq

structure RtMessageMetadata where
  id : RtMessageId
  previousId : RtMessageId
  previousSequence : UInt64
  sendTime : UInt64
  kind : RtMessageType
  furtherUserAttribution : Option RtUserId
  deriving DecidableEq

/-- A send names its channel by the short identifier. -/
structure RtSend where
  metadata : RtMessageMetadata
  channel : Nat
  wrapper : RtMessageWrapper
  expectedPreviousSequence : UInt64
  deriving DecidableEq

structure ChatSendReceipt where
  sequence : UInt64
  insertTime : UInt64
  deriving DecidableEq

structure RtMessage where
  metadata : RtMessageMetadata
  wrapper : RtMessageWrapper
  sequence : UInt64
  sender : Option RtPartyId
  insertTime : UInt64
  deriving DecidableEq

structure RtThreadRange where
  start : UInt64
  stop : UInt64

structure RtThreadQuery where
  channel : RtChannelId
  ranges : List RtThreadRange
  sequences : List UInt64

structure RtRecents where
  channel : RtChannelId
  stopAt : UInt64
  limit : UInt64

structure RtThreadPage where
  ranges : List (List RtMessage)
  sequences : List RtMessage

/-! ## Encoding -/

/-- The end of `RealtimeWire::encoded`. -/
def rtEncoded (value : Value) : Except Error (List UInt8) := do
  let bytes ← encodeValue value
  if rtMaxWireBytes < bytes.length then .error (.integerRange "realtime frame limit") else .ok bytes

def optionValue {α : Type} (toValue : α → Value) : Option α → Value
  | some a => toValue a
  | none => .null

def arm (kind : UInt64) (tag : UInt8) (value : Value) : Value :=
  .array [.unsigned kind, .variant [tag] value]

def RtUserId.toValue (user : RtUserId) : Value := .binary user.entity.bytes

def RtPartyId.toValue (party : RtPartyId) : Value := .binary party.entity.bytes

def RtBox.toValue (box : RtBox) : Value := .array [box.key.toValue, box.boxed.toValue]

namespace RtLastMessage

def toValue (last : RtLastMessage) : Value :=
  .array [.unsigned last.sequence, .unsigned last.kind.toUInt64, .unsigned last.insertTime,
    optionValue RtPartyId.toValue last.sender,
    optionValue RtUserId.toValue last.furtherUserAttribution]

def encoded (last : RtLastMessage) : Except Error (List UInt8) := rtEncoded last.toValue

end RtLastMessage

namespace RtChannelMetadata

def toValue (md : RtChannelMetadata) : Value :=
  .array [.binary md.id.bytes, .binary md.team.entity.bytes, .unsigned md.app.toUInt64,
    .unsigned md.sequence, md.name.toValue, optionValue RtBox.toValue md.description,
    .array [md.roles.read.toValue, md.roles.write.toValue],
    optionValue RtLastMessage.toValue md.lastMessage, .unsigned md.ctime, .unsigned md.mtime,
    .unsigned md.updatedAt, .unsigned md.tier.toUInt64, .bool md.unreadable]

def encoded (md : RtChannelMetadata) : Except Error (List UInt8) := rtEncoded md.toValue

end RtChannelMetadata

namespace RtMessageWrapper

def validate : RtMessageWrapper → Except Error Unit
  | .plaintext body =>
    if rtMaxBodyBytes < body.length then .error (.integerRange "realtime body limit") else .ok ()
  | .encrypted box =>
    if rtMaxCiphertextBytes < box.ciphertext.length then
      .error (.integerRange "realtime ciphertext limit")
    else .ok ()

def toValue : RtMessageWrapper → Value
  | .plaintext body => arm 0 0x30 (.binary body)
  | .encrypted box =>
    arm 1 0x31 (.array [arm 0 0x30 (.binary box.ciphertext), box.key.toValue])

end RtMessageWrapper

def RtMessageMetadata.toValue (md : RtMessageMetadata) : Value :=
  .array [.binary md.id.bytes, .binary md.previousId.bytes, .unsigned md.previousSequence,
    .unsigned md.sendTime, .unsigned md.kind.toUInt64,
    optionValue RtUserId.toValue md.furtherUserAttribution]

namespace RtSend

def toValue (send : RtSend) : Value :=
  .array [send.metadata.toValue, .unsigned (UInt64.ofNat send.channel), send.wrapper.toValue,
    .unsigned send.expectedPreviousSequence]

def validate (send : RtSend) : Except Error Unit := send.wrapper.validate

def encoded (send : RtSend) : Except Error (List UInt8) := do
  send.validate
  rtEncoded send.toValue

end RtSend

namespace RtMessage

def toValue (message : RtMessage) : Value :=
  .array [message.metadata.toValue, message.wrapper.toValue, .unsigned message.sequence,
    optionValue RtPartyId.toValue message.sender, .unsigned message.insertTime]

def encoded (message : RtMessage) : Except Error (List UInt8) := do
  message.wrapper.validate
  rtEncoded message.toValue

end RtMessage

/-! ## Sequence numbers and versions -/

theorem toNat_max (a b : UInt64) : (max a b).toNat = max a.toNat b.toNat := by
  show (if a ≤ b then b else a).toNat = _
  split
  · rename_i h
    exact (Nat.max_eq_right (UInt64.le_iff_toNat_le.mp h)).symm
  · rename_i h
    refine (Nat.max_eq_left ?_).symm
    have hlt : ¬ a.toNat ≤ b.toNat := fun hle => h (UInt64.le_iff_toNat_le.mpr hle)
    omega

end Foks.Proto
