/-
  Building chain links (`foks-proto`, `identity/chain.rs`): the values of the changes, the inner
  blob of an unsigned link, and the link with its stack of signatures.
-/
import Foks.Proto.Identity

namespace Foks.Proto

open Foks.Snowpack

/-- A blob, or null. -/
def optionBlob (bytes : Option (List UInt8)) : Value := bytes.elim .null .binary

def rationalValue (value : Rational) : Value :=
  .array [.bool value.infinity,
    if value.base.isEmpty then .null else .binary value.base,
    if value.exponent.toInt < 0 then .negative value.exponent
    else .unsigned (UInt64.ofNat value.exponent.toInt.toNat)]

def rationalRangeValue (range : RationalRange) : Value :=
  .array [rationalValue range.low, rationalValue range.high]

def changeMetadataValue : ChangeMetadata → Value
  | .deviceName commitment => .array [.unsigned 0, .variant [0x30] (.binary commitment.bytes)]
  | .username commitment => .array [.unsigned 1, .variant [0x30] (.binary commitment.bytes)]
  | .eldest commitment =>
    .array [.unsigned 2, .variant [0x31] (.array [.binary commitment.bytes])]
  | .teamName commitment => .array [.unsigned 3, .variant [0x30] (.binary commitment.bytes)]
  | .teamIndexRange range => .array [.unsigned 4, .variant [0x32] (rationalRangeValue range)]
  | .memberLoadFloor role => .array [.unsigned 5, .variant [0x33] role.toValue]

def userMemberKeysValue : UserMemberKeys → Value
  | .none => .array [.unsigned 0, .variantNone]
  | .user hepkFingerprint subkey =>
    .array [.unsigned 1, .variant [0x31] (.array [.binary hepkFingerprint.bytes,
      optionBlob (subkey.map (·.bytes))])]

def userMemberChangeValue (change : UserMemberChange) : Value :=
  .array [change.role.toValue,
    .array [.array [.binary change.entity.bytes, optionBlob (change.scopedHost.map (·.bytes))],
      change.sourceRole.toValue, userMemberKeysValue change.keys]]

def teamMemberKeysValue : Option TeamMemberKeys → Value
  | none => .array [.unsigned 0, .variantNone]
  | some keys =>
    .array [.unsigned 2, .variant [0x32] (.array [.binary keys.verifyKey.bytes,
      .binary keys.hepkFingerprint.bytes, .unsigned keys.generation,
      optionBlob (keys.removalKeyCommitment.map (·.bytes)),
      keys.indexRange.elim .null rationalRangeValue])]

def teamMemberChangeValue (change : TeamMemberChange) : Value :=
  .array [change.role.toValue,
    .array [.array [.binary change.party.bytes, optionBlob (change.scopedHost.map (·.bytes))],
      change.sourceRole.toValue, teamMemberKeysValue change.keys]]

def userSharedKeyValue (key : UserSharedKey) : Value :=
  .array [.unsigned key.generation, key.role.toValue, .binary key.verifyKey.bytes,
    .binary key.hepkFingerprint.bytes]

/-- The chainer and the hidden location commitment. -/
def chainerValue (chainer : Chainer) : Value :=
  .array [.array [.unsigned chainer.seqno, optionBlob (chainer.previous.map (·.bytes)),
      .array [.unsigned chainer.root.epoch, .binary chainer.root.hash.bytes],
      .unsigned chainer.time],
    .binary chainer.nextLocationCommitment.bytes]

/-- The inner blob of a group change: its version and its eight fields. -/
def groupChangeValue (chainer : Chainer) (entity host signer : EntityId) (owner : Value)
    (changes sharedKeys metadata : List Value) : Value :=
  .array [.unsigned 1, .variant [0x30] (.array [chainerValue chainer,
    .array [.binary entity.bytes, .binary host.bytes], .array [.binary signer.bytes, owner],
    listValue changes, .null, listValue sharedKeys, listValue metadata, .null])]

structure UnsignedUserLink where
  inner : List UInt8

namespace UnsignedUserLink

def userGroupChange (change : UserGroupChange) : Except Error UnsignedUserLink := do
  let _ ← change.uid.requireType entityUser
  let _ ← change.host.requireType entityHost
  if change.chainer.seqno < 2 ∨ change.chainer.previous.isNone then
    .error (.integerRange "non-eldest user sequence")
  else do
    let inner ← encodeValue (groupChangeValue change.chainer change.uid change.host change.signer
      .null (change.changes.map userMemberChangeValue) (change.sharedKeys.map userSharedKeyValue)
      (change.metadata.map changeMetadataValue))
    .ok ⟨inner⟩

def teamGroupChange (change : TeamGroupChange) : Except Error UnsignedUserLink := do
  let _ ← change.host.requireType entityHost
  if change.team.entityType ≠ entityNamedTeam ∧ change.team.entityType ≠ entityAdHocTeam then
    .error (.wrongEntityType entityNamedTeam change.team.entityType)
  else if change.chainer.seqno = 0 ∨ (change.chainer.seqno == 1) ≠ change.chainer.previous.isNone
  then .error (.integerRange "team chain sequence")
  else do
    let inner ← encodeValue (groupChangeValue change.chainer change.team change.host change.signer
      (.array [.binary change.signerOwner.party.bytes, change.signerOwner.sourceRole.toValue])
      (change.changes.map teamMemberChangeValue) (change.sharedKeys.map userSharedKeyValue)
      (change.metadata.map changeMetadataValue))
    .ok ⟨inner⟩

/-- The outer link with its signatures. -/
def outerValue (inner : List UInt8) (signatures : List Signature) : Value :=
  .array [.unsigned 1,
    .variant [0x31] (.array [.binary inner, .array (signatures.map Signature.toValue)])]

def finish (link : UnsignedUserLink) (signatures : List Signature) : Except Error UserLink :=
  if signatures.isEmpty then .error (.fieldCount 1 0)
  else do
    let exactBytes ← encodeValue (outerValue link.inner signatures)
    .ok ⟨link.inner, signatures, exactBytes⟩

end UnsignedUserLink

end Foks.Proto
