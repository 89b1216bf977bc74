/-
  Links of user and team chains (`foks-proto`, `identity/chain.rs` and `identity/hepk.rs`).

  An outer link keeps its inner blob, the stack of signatures over it and the exact bytes it was
  read from. The inner blob is decoded on demand, as a user or as a team change. A hybrid
  encryption public key (HEPK) keeps its exact bytes too: its fingerprint is their hash.
-/
import Foks.Crypto.PrefixedHash
import Foks.Proto.Entity
import Foks.Proto.Role

namespace Foks.Proto

open Foks.Lib Foks.Snowpack Foks.Crypto

def linkOuterV1TypeId : UInt64 := 0xc2745284af617745
def hepkTypeId : UInt64 := 0x9c581beed36c7e0c

/-! ## Hybrid encryption public keys -/

inductive DhPublicKey where
  | curve25519 (key : FixedBytes 32)
  | p256 (key : FixedBytes 33)
  deriving DecidableEq

structure Hepk where
  classical : DhPublicKey
  mlkem768 : List UInt8
  exactBytes : List UInt8
  deriving DecidableEq

namespace Hepk

def curve25519 (hepk : Hepk) : Option (FixedBytes 32) :=
  match hepk.classical with
  | .curve25519 key => some key
  | .p256 _ => none

def p256 (hepk : Hepk) : Option (FixedBytes 33) :=
  match hepk.classical with
  | .curve25519 _ => none
  | .p256 key => some key

end Hepk

/-! ## Changes -/

structure TreeRoot where
  epoch : UInt64
  hash : Hash
  deriving DecidableEq

structure Rational where
  infinity : Bool
  base : List UInt8
  exponent : Int64
  deriving DecidableEq

structure RationalRange where
  low : Rational
  high : Rational
  deriving DecidableEq

inductive ChangeMetadata where
  | deviceName (commitment : Hash)
  | username (commitment : Hash)
  | eldest (subchainLocationCommitment : Hash)
  | teamName (commitment : Hash)
  | teamIndexRange (range : RationalRange)
  | memberLoadFloor (role : Role)
  deriving DecidableEq

inductive UserMemberKeys where
  | none
  | user (hepkFingerprint : Hash) (subkey : Option EntityId)
  deriving DecidableEq

structure UserMemberChange where
  role : Role
  entity : EntityId
  scopedHost : Option EntityId
  sourceRole : Role
  keys : UserMemberKeys
  deriving DecidableEq

structure UserSharedKey where
  generation : UInt64
  role : Role
  verifyKey : EntityId
  hepkFingerprint : Hash
  deriving DecidableEq

/-- What every chain link fixes besides its changes: its place in the chain, the root it was made
    at, and the commitment to the tree location of the next link. -/
structure Chainer where
  seqno : UInt64
  previous : Option Hash
  root : TreeRoot
  time : UInt64
  nextLocationCommitment : Hash
  deriving DecidableEq

structure UserGroupChange where
  chainer : Chainer
  uid : EntityId
  host : EntityId
  signer : EntityId
  changes : List UserMemberChange
  sharedKeys : List UserSharedKey
  metadata : List ChangeMetadata
  deriving DecidableEq

structure UserEldest where
  chainer : Chainer
  uid : EntityId
  host : EntityId
  signer : EntityId
  member : EntityId
  memberVerifyKey : EntityId
  memberRole : Role
  memberSourceRole : Role
  memberScopedHost : Option EntityId
  memberHepkFingerprint : Hash
  memberSubkey : Option EntityId
  pukGeneration : UInt64
  pukVerifyKey : EntityId
  pukHepkFingerprint : Hash
  metadata : List ChangeMetadata
  deriving DecidableEq

structure TeamKeyOwner where
  party : EntityId
  sourceRole : Role
  deriving DecidableEq

structure TeamMemberKeys where
  verifyKey : EntityId
  hepkFingerprint : Hash
  generation : UInt64
  removalKeyCommitment : Option Hash
  indexRange : Option RationalRange
  deriving DecidableEq

structure TeamMemberChange where
  role : Role
  party : EntityId
  scopedHost : Option EntityId
  sourceRole : Role
  keys : Option TeamMemberKeys
  deriving DecidableEq

structure TeamGroupChange where
  chainer : Chainer
  team : EntityId
  host : EntityId
  signer : EntityId
  signerOwner : TeamKeyOwner
  changes : List TeamMemberChange
  sharedKeys : List UserSharedKey
  metadata : List ChangeMetadata
  deriving DecidableEq

/-! ## Readers -/

section

variable (value : Value)

def rational : Except Error Rational := do
  let fields ← array value 3
  let infinity ← boolean (fields.getD 0 .null)
  let base ← match fields.getD 1 .null with
    | .null => .ok []
    | value => binary value
  let exponent ← integer (fields.getD 2 .null)
  .ok ⟨infinity, base, exponent⟩

def rationalRange : Except Error RationalRange := do
  let fields ← array value 2
  let low ← rational (fields.getD 0 .null)
  let high ← rational (fields.getD 1 .null)
  .ok ⟨low, high⟩

def changeMetadata : Except Error ChangeMetadata := do
  let fields ← array value 2
  let changeType ← unsigned (fields.getD 0 .null)
  let payload := fields.getD 1 .null
  if changeType = 0 then do
    let inner ← variant payload [0x30]
    let commitment ← fixedBlob 32 inner "device-name commitment"
    .ok (.deviceName commitment)
  else if changeType = 1 then do
    let inner ← variant payload [0x30]
    let commitment ← fixedBlob 32 inner "username commitment"
    .ok (.username commitment)
  else if changeType = 2 then do
    let inner ← variant payload [0x31]
    let eldest ← array inner 1
    let commitment ← fixedBlob 32 (eldest.getD 0 .null) "subchain location commitment"
    .ok (.eldest commitment)
  else if changeType = 3 then do
    let inner ← variant payload [0x30]
    let commitment ← fixedBlob 32 inner "team-name commitment"
    .ok (.teamName commitment)
  else if changeType = 4 then do
    let inner ← variant payload [0x32]
    let range ← rationalRange inner
    .ok (.teamIndexRange range)
  else if changeType = 5 then do
    let inner ← variant payload [0x33]
    let role ← role inner
    .ok (.memberLoadFloor role)
  else .error (.unknownEnum "change metadata type" changeType)

def userMemberKeys : Except Error UserMemberKeys := do
  let fields ← array value 2
  let keyType ← unsigned (fields.getD 0 .null)
  let payload := fields.getD 1 .null
  if keyType = 0 then
    if payload ≠ .variantNone then .error (typeError "empty member-key variant" payload)
    else .ok .none
  else if keyType = 1 then do
    let inner ← variant payload [0x31]
    let user ← array inner 2
    let hepkFingerprint ← fixedBlob 32 (user.getD 0 .null) "device HEPK fingerprint"
    let subkey ← option (user.getD 1 .null) entity
    .ok (.user hepkFingerprint subkey)
  else .error (.unknownEnum "user member keys" keyType)

def userMemberChange : Except Error UserMemberChange := do
  let fields ← array value 2
  let member ← array (fields.getD 1 .null) 3
  let fqe ← array (member.getD 0 .null) 2
  let keys ← userMemberKeys (member.getD 2 .null)
  let destination ← role (fields.getD 0 .null)
  let entity ← userMemberEntity (fqe.getD 0 .null)
  let scopedHost ← option (fqe.getD 1 .null) (entityOf entityHost)
  let sourceRole ← role (member.getD 1 .null)
  .ok ⟨destination, entity, scopedHost, sourceRole, keys⟩

def teamMemberKeys : Except Error (Option TeamMemberKeys) := do
  let fields ← array value 2
  let keyType ← unsigned (fields.getD 0 .null)
  let payload := fields.getD 1 .null
  if keyType = 0 then
    if payload ≠ .variantNone then .error (typeError "empty member-key variant" payload)
    else .ok none
  else if keyType = 2 then do
    let inner ← variant payload [0x32]
    let team ← array inner 5
    let verifyKey ← entity (team.getD 0 .null)
    if verifyKey.entityType ≠ entityPukVerify ∧ verifyKey.entityType ≠ entityPtkVerify then
      .error (.wrongEntityType entityPukVerify verifyKey.entityType)
    else do
      let hepkFingerprint ← fixedBlob 32 (team.getD 1 .null) "member HEPK fingerprint"
      let generation ← unsigned (team.getD 2 .null)
      let removalKeyCommitment ← option (team.getD 3 .null)
        (fun value => fixedBlob 32 value "removal-key commitment")
      let indexRange ← option (team.getD 4 .null) rationalRange
      .ok (some ⟨verifyKey, hepkFingerprint, generation, removalKeyCommitment, indexRange⟩)
  else .error (.unknownEnum "team member keys" keyType)

def teamMemberChange : Except Error TeamMemberChange := do
  let fields ← array value 2
  let member ← array (fields.getD 1 .null) 3
  let fqe ← array (member.getD 0 .null) 2
  let keys ← teamMemberKeys (member.getD 2 .null)
  let destination ← role (fields.getD 0 .null)
  let party ← entity (fqe.getD 0 .null)
  let scopedHost ← option (fqe.getD 1 .null) (entityOf entityHost)
  let sourceRole ← role (member.getD 1 .null)
  .ok ⟨destination, party, scopedHost, sourceRole, keys⟩

/-- A shared key whose verify key has the given kind (`user_shared_key`, `team_shared_key`). -/
def sharedKey (kind : UInt8) (fingerprintKind : String) (value : Value) :
    Except Error UserSharedKey := do
  let fields ← array value 4
  let generation ← unsigned (fields.getD 0 .null)
  let keyRole ← role (fields.getD 1 .null)
  let verifyKey ← entityOf kind (fields.getD 2 .null)
  let hepkFingerprint ← fixedBlob 32 (fields.getD 3 .null) fingerprintKind
  .ok ⟨generation, keyRole, verifyKey, hepkFingerprint⟩

def userSharedKey : Value → Except Error UserSharedKey :=
  sharedKey entityPukVerify "PUK HEPK fingerprint"

def teamSharedKey : Value → Except Error UserSharedKey :=
  sharedKey entityPtkVerify "PTK HEPK fingerprint"

def keyOwner : Except Error TeamKeyOwner := do
  let fields ← array value 2
  let party ← entity (fields.getD 0 .null)
  let sourceRole ← role (fields.getD 1 .null)
  .ok ⟨party, sourceRole⟩

/-! ## Links -/

structure UserLink where
  inner : List UInt8
  signatures : List Signature
  exactBytes : List UInt8
  deriving DecidableEq

def userLink : Except Error UserLink := do
  let fields ← array value 2
  expectUnsigned (fields.getD 0 .null) "link outer version" 1
  let body ← variant (fields.getD 1 .null) [0x31]
  let v1 ← array body 2
  let inner ← binary (v1.getD 0 .null)
  let signatures ← list (v1.getD 1 .null) signature
  let exactBytes ← encodeValue value
  .ok ⟨inner, signatures, exactBytes⟩

end

/-- Reads the chainer of a link from the positional fields it is spread over. -/
def chainer (locationKind : String) (hidden fields root : List Value) : Except Error Chainer := do
  let seqno ← unsigned (fields.getD 0 .null)
  let previous ← option (fields.getD 1 .null) (fun v => fixedBlob 32 v "previous link hash")
  let epoch ← unsigned (root.getD 0 .null)
  let hash ← fixedBlob 32 (root.getD 1 .null) "Merkle root hash"
  let time ← unsigned (fields.getD 3 .null)
  let nextLocationCommitment ← fixedBlob 32 (hidden.getD 1 .null) locationKind
  .ok ⟨seqno, previous, ⟨epoch, hash⟩, time, nextLocationCommitment⟩

namespace UserLink

def decode (bytes : List UInt8) : Except Error UserLink := do
  let value ← decodeValue bytes
  userLink value

section

variable (link : UserLink)

/-- The bytes a signature of the stack covers: the inner blob and the signatures below it. -/
def signingBytes (signatureCount : Nat) : Except Error (List UInt8) :=
  if signatureCount > link.signatures.length then
    .error (.length "signature prefix" link.signatures.length signatureCount)
  else
    encodeValue (.array [.binary link.inner,
      listValue ((link.signatures.take signatureCount).map Signature.toValue)])

/-- The eight fields of a group change. -/
def groupFields : Except Error (List Value) := do
  let inner ← decodeValue link.inner
  let fields ← array inner 2
  expectUnsigned (fields.getD 0 .null) "link inner version" 1
  let group ← variant (fields.getD 1 .null) [0x30]
  array group 8

def decodeEldest : Except Error UserEldest := do
  let group ← link.groupFields
  let hidden ← array (group.getD 0 .null) 2
  let base ← array (hidden.getD 0 .null) 4
  let root ← array (base.getD 2 .null) 2
  let fqUser ← array (group.getD 1 .null) 2
  let signer ← array (group.getD 2 .null) 2
  let changes ← arrayAny (group.getD 3 .null)
  let sharedKeys ← arrayAny (group.getD 5 .null)
  if changes.length ≠ 1 ∨ sharedKeys.length ≠ 1 then
    .error (.fieldCount 1 (max changes.length sharedKeys.length))
  else do
    let memberFields ← array (changes.getD 0 .null) 2
    let memberRole ← role (memberFields.getD 0 .null)
    if memberRole ≠ .owner then
      .error (.unknownEnum "eldest member role" memberRole.protocolValue)
    else do
      let member ← array (memberFields.getD 1 .null) 3
      let memberFqe ← array (member.getD 0 .null) 2
      let memberKeys ← array (member.getD 2 .null) 2
      expectUnsigned (memberKeys.getD 0 .null) "member key version" 1
      let keyBody ← variant (memberKeys.getD 1 .null) [0x31]
      let keyV1 ← array keyBody 2
      let shared ← array (sharedKeys.getD 0 .null) 4
      let sharedRole ← role (shared.getD 1 .null)
      if sharedRole ≠ .owner then
        .error (.unknownEnum "eldest shared-key role" sharedRole.protocolValue)
      else do
        let base ← chainer "next tree location" hidden base root
        let uid ← entityOf entityUser (fqUser.getD 0 .null)
        let host ← entityOf entityHost (fqUser.getD 1 .null)
        let signer ← deviceEntity (signer.getD 0 .null)
        let memberId ← deviceEntity (memberFqe.getD 0 .null)
        let memberSourceRole ← role (member.getD 1 .null)
        let memberScopedHost ← option (memberFqe.getD 1 .null) (entityOf entityHost)
        let memberHepkFingerprint ← fixedBlob 32 (keyV1.getD 0 .null) "HEPK fingerprint"
        let memberSubkey ← option (keyV1.getD 1 .null) (entityOf entitySubkey)
        let pukGeneration ← unsigned (shared.getD 0 .null)
        let pukVerifyKey ← entityOf entityPukVerify (shared.getD 2 .null)
        let pukHepkFingerprint ← fixedBlob 32 (shared.getD 3 .null) "PUK HEPK fingerprint"
        let metadata ← list (group.getD 6 .null) changeMetadata
        .ok ⟨base, uid, host, signer, memberId, memberId, memberRole, memberSourceRole,
          memberScopedHost, memberHepkFingerprint, memberSubkey, pukGeneration, pukVerifyKey,
          pukHepkFingerprint, metadata⟩

def decodeGroupChange : Except Error UserGroupChange := do
  let group ← link.groupFields
  let hidden ← array (group.getD 0 .null) 2
  let base ← array (hidden.getD 0 .null) 4
  let root ← array (base.getD 2 .null) 2
  let fqUser ← array (group.getD 1 .null) 2
  let signer ← array (group.getD 2 .null) 2
  if signer.getD 1 .null ≠ .null then
    .error (typeError "empty user-chain key owner" (signer.getD 1 .null))
  else do
    let base ← chainer "next tree location commitment" hidden base root
    let uid ← entityOf entityUser (fqUser.getD 0 .null)
    let host ← entityOf entityHost (fqUser.getD 1 .null)
    let signer ← userMemberEntity (signer.getD 0 .null)
    let changes ← list (group.getD 3 .null) userMemberChange
    let sharedKeys ← list (group.getD 5 .null) userSharedKey
    let metadata ← list (group.getD 6 .null) changeMetadata
    .ok ⟨base, uid, host, signer, changes, sharedKeys, metadata⟩

def decodeTeamGroupChange : Except Error TeamGroupChange := do
  let group ← link.groupFields
  let hidden ← array (group.getD 0 .null) 2
  let base ← array (hidden.getD 0 .null) 4
  let root ← array (base.getD 2 .null) 2
  let fqTeam ← array (group.getD 1 .null) 2
  let team ← entity (fqTeam.getD 0 .null)
  if team.entityType ≠ entityNamedTeam ∧ team.entityType ≠ entityAdHocTeam then
    .error (.wrongEntityType entityNamedTeam team.entityType)
  else do
    let signer ← array (group.getD 2 .null) 2
    let owner ← option (signer.getD 1 .null) keyOwner
    let owner ← okOr (typeError "team key owner" (signer.getD 1 .null)) owner
    let base ← chainer "next tree location commitment" hidden base root
    let host ← entityOf entityHost (fqTeam.getD 1 .null)
    let signer ← entity (signer.getD 0 .null)
    let changes ← list (group.getD 3 .null) teamMemberChange
    let sharedKeys ← list (group.getD 5 .null) teamSharedKey
    let metadata ← list (group.getD 6 .null) changeMetadata
    .ok ⟨base, team, host, signer, owner, changes, sharedKeys, metadata⟩

end

end UserLink

end Foks.Proto
