/-
  Replay of user-chain links (`foks-verify`, `user_transition.rs`, and the eldest link in
  `user.rs`).

  The replay state holds the active devices, the current per-user keys (PUKs) by role, every PUK
  there ever was, and the roles whose PUK a revoked device may still know. The eldest link makes
  the first state; each further link provisions a device, revokes one, or changes no member.
  `UserReplayState.replay_cases` says what one accepted link can do.
-/
import Foks.Lib.SortedMap
import Foks.Verify.Basic

namespace Foks.Verify

open Std (ExtTreeMap ExtTreeSet)
open Foks.Lib Foks.Crypto Foks.Proto

structure VerifiedDevice where
  id : EntityId
  role : Role
  hepk : Hepk
  subkey : Option EntityId
  deriving DecidableEq

structure VerifiedSharedKey where
  role : Role
  generation : UInt64
  verifyKey : EntityId
  hepk : Hepk
  deriving DecidableEq

abbrev DeviceMap := ExtTreeMap (List UInt8) VerifiedDevice compare

abbrev SharedKeyMap := ExtTreeMap Role VerifiedSharedKey compare

structure UserReplayState where
  devices : DeviceMap
  sharedKeys : SharedKeyMap
  sharedKeyHistory : List VerifiedSharedKey
  staleSharedKeyRoles : ExtTreeSet Role compare

section

variable (change : UserGroupChange)

def invalidTransition (rule : UserTransitionRule) : Error :=
  .userTransition change.chainer.seqno rule

/-- The first key whose hash is the fingerprint. -/
def findHepk (digest : Digest) : List Hepk → Hash → Except Error Hepk
  | [], _ => .error .missingHepk
  | hepk :: hepks, fingerprint => do
    let hash ← prefixedHash digest hepkTypeId hepk.exactBytes
    if hash = fingerprint then .ok hepk else findHepk digest hepks fingerprint

/-- Checks a stack of signatures, each over the inner link and the signatures below it. -/
def verifySignatureStack (digest : Digest) (scheme : SignatureScheme)
    (onError : Crypto.Error → Error) (link : UserLink) :
    Nat → List (EntityId × Signature) → Except Error Unit
  | _, [] => .ok ()
  | index, (verifier, signature) :: rest => do
    let bytes ← protocol (link.signingBytes index)
    (verifyTyped digest scheme verifier signature linkOuterV1TypeId bytes).mapError onError
    verifySignatureStack digest scheme onError link (index + 1) rest

/-! ## Checks of one link -/

/-- Whether a new key has the generation its role requires: the next one, or the first one of a
    role that the link itself adds. -/
def generationFits (sharedKeys : SharedKeyMap)
    (addedRole : Option Role) (key : UserSharedKey) : Bool :=
  match sharedKeys[key.role]? with
  | some current => checkedAddU64 current.generation 1 == some key.generation
  | none => addedRole == some key.role && key.generation == 1

/-- Whether a key shares its verify key or its HEPK with one of the list. -/
def reusesKey (keys : List VerifiedSharedKey) (verifyKey : EntityId) (hepk : Hepk) : Bool :=
  keys.any fun old => old.verifyKey == verifyKey || old.hepk == hepk

/-- The loop over the shared keys of a link. -/
def rotationLoop (digest : Digest) (change : UserGroupChange) (hepks : List Hepk)
    (sharedKeys : SharedKeyMap) (history : List VerifiedSharedKey)
    (addedRole : Option Role) :
    Option Role → List VerifiedSharedKey → List UserSharedKey →
      Except Error (List VerifiedSharedKey)
  | _, rotated, [] => .ok rotated
  | lastRole, rotated, key :: keys =>
    if key.role = .none ∨ (lastRole.any fun role => decide (key.role ≤ role)) ∨
        ¬ generationFits sharedKeys addedRole key then
      .error (invalidTransition change .sharedKeyRotation)
    else do
      let hepk ← findHepk digest hepks key.hepkFingerprint
      if hepk.curve25519.isNone ∨ reusesKey history key.verifyKey hepk ∨
          reusesKey rotated key.verifyKey hepk then
        .error (invalidTransition change .sharedKeyRotation)
      else
        rotationLoop digest change hepks sharedKeys history addedRole (some key.role)
          (rotated ++ [⟨key.role, key.generation, key.verifyKey, hepk⟩]) keys

/-- The member change of a link that is not a removal. -/
def addedMember : Option UserMemberChange :=
  change.changes.head?.filter fun member => member.role ≠ .none

def validateSharedKeyRotations (digest : Digest) (change : UserGroupChange) (hepks : List Hepk)
    (sharedKeys : SharedKeyMap) (history : List VerifiedSharedKey) :
    Except Error (List VerifiedSharedKey) :=
  rotationLoop digest change hepks sharedKeys history ((addedMember change).map (·.role)) none []
    change.sharedKeys

def userMemberHepkMatches (entity : EntityId) (hepk : Hepk) : Bool :=
  if entity.entityType = entityDevice ∨ entity.entityType = entityBackupKey ∨
      entity.entityType = entityBotTokenKey then hepk.curve25519.isSome
  else if entity.entityType = entityYubi then entity.p256Key.toOption == hepk.p256
  else false

/-- Whether the kind of a device has a subkey exactly when one is given. -/
def validSubkey (entity : EntityId) (subkey : Option EntityId) : Bool :=
  if entity.entityType = entityYubi then subkey.isSome
  else if entity.entityType = entityDevice ∨ entity.entityType = entityBackupKey ∨
      entity.entityType = entityBotTokenKey then subkey.isNone
  else false

def isDeviceName : ChangeMetadata → Bool
  | .deviceName _ => true
  | _ => false

def isUsername : ChangeMetadata → Bool
  | .username _ => true
  | _ => false

/-- Who may be provisioned, by whom, and with which new key. -/
def provisioningRefused (member : UserMemberChange) (signer : VerifiedDevice) (devices : DeviceMap)
    (sharedKeys : SharedKeyMap) (rotated : List VerifiedSharedKey) : Bool :=
  decide (signer.role ≠ .owner) || member.scopedHost.isSome ||
    decide (member.sourceRole ≠ .none) || devices.contains member.entity.bytes ||
    !(change.metadata.length == 1 && change.metadata.all isDeviceName) ||
    decide (rotated.length > 1) || (rotated.head?.any fun key => decide (key.role ≠ member.role)) ||
    (!rotated.isEmpty && decide (signer.role ≤ member.role)) ||
    (decide (member.role < signer.role) && !sharedKeys.contains member.role && rotated.isEmpty)

def validateProvisioning (digest : Digest) (change : UserGroupChange) (hepks : List Hepk)
    (signer : VerifiedDevice) (devices : DeviceMap)
    (sharedKeys : SharedKeyMap) (rotated : List VerifiedSharedKey) :
    Except Error (Option VerifiedDevice × Option EntityId) :=
  match addedMember change with
  | none => .ok (none, none)
  | some member =>
    if provisioningRefused change member signer devices sharedKeys rotated then
      .error (invalidTransition change .provisioning)
    else
      match member.keys with
      | .none => .error (invalidTransition change .provisioning)
      | .user hepkFingerprint subkey =>
        if ¬ validSubkey member.entity subkey then .error (invalidTransition change .provisioning)
        else do
          let hepk ← findHepk digest hepks hepkFingerprint
          if ¬ userMemberHepkMatches member.entity hepk then
            .error (invalidTransition change .provisioning)
          else .ok (some ⟨member.entity, member.role, hepk, subkey⟩, subkey)

variable (signer : VerifiedDevice) (rotated : List VerifiedSharedKey)

/-- The new keys sign first, then the added device with its subkey, then the signer. -/
def transitionVerifiers (addedDevice : Option VerifiedDevice)
    (provisioningSubkey : Option EntityId) : List EntityId :=
  rotated.map (·.verifyKey) ++
    (match addedDevice with
      | some device => provisioningSubkey.toList ++ [device.id]
      | none => []) ++ [signer.id]

def verifyTransitionSignatures (digest : Digest) (scheme : SignatureScheme) (link : UserLink)
    (signer : VerifiedDevice) (rotated : List VerifiedSharedKey)
    (addedDevice : Option VerifiedDevice) (provisioningSubkey : Option EntityId) :
    Except Error Unit :=
  let verifiers := transitionVerifiers signer rotated addedDevice provisioningSubkey
  if verifiers.length ≠ link.signatures.length then
    .error (.userSignatureCount link.signatures.length)
  else verifySignatureStack digest scheme .signature link 0 (verifiers.zip link.signatures)

/-- Whether some current key up to a role is not replaced. -/
def leavesKey (sharedKeys : SharedKeyMap) (upper : Role)
    (rotated : List VerifiedSharedKey) : Bool :=
  sharedKeys.keys.any fun role =>
    decide (role ≤ upper) && !(rotated.any fun key => key.role == role)

/-- A link without a member change renames the user, or replaces every key up to some role. -/
def standaloneValid (sharedKeys : SharedKeyMap) : Bool :=
  match rotated.getLast? with
  | none => change.metadata.length == 1 && change.metadata.all isUsername
  | some upper =>
    decide (signer.role = .owner) && change.metadata.isEmpty &&
      !leavesKey sharedKeys upper.role rotated

def validateStandaloneChange (sharedKeys : SharedKeyMap) : Except Error Unit :=
  if standaloneValid change signer rotated sharedKeys then .ok ()
  else .error (invalidTransition change .standaloneChange)

end

/-! ## The state machine -/

namespace UserReplayState

def fromEldest (device : VerifiedDevice) (sharedKey : VerifiedSharedKey) : UserReplayState where
  devices := (∅ : DeviceMap).insert device.id.bytes device
  sharedKeys := (∅ : SharedKeyMap).insert sharedKey.role sharedKey
  sharedKeyHistory := [sharedKey]
  staleSharedKeyRoles := ∅

section

variable (s : UserReplayState)

/-- The number of owner devices. -/
def ownerCount : Nat :=
  ((sortedValues s.devices).filter fun device => device.role = .owner).length

variable (change : UserGroupChange)

/-- A revocation by another device must replace every key the revoked one could read. A device
    that revokes itself replaces none; those keys are marked instead. -/
def applyRevocation (member : UserMemberChange) (expectedHost : EntityId) (signer : VerifiedDevice)
    (rotated : List VerifiedSharedKey) : Except Error UserReplayState :=
  if member.keys ≠ .none ∨ ¬ change.metadata.isEmpty ∨
      (member.scopedHost.any fun host => host != expectedHost) then
    .error (invalidTransition change .revocation)
  else
    match s.devices[member.entity.bytes]? with
    | none => .error (invalidTransition change .revocation)
    | some target =>
      let selfRevoke := target.id == signer.id
      if selfRevoke ≠ rotated.isEmpty ∨ signer.role ≠ .owner ∨
          (¬ selfRevoke ∧ leavesKey s.sharedKeys target.role rotated) then
        .error (invalidTransition change .revocation)
      else if target.role = .owner ∧ s.ownerCount = 1 then
        .error (invalidTransition change .lastOwner)
      else
        .ok { s with
          staleSharedKeyRoles :=
            if selfRevoke then
              s.staleSharedKeyRoles.insertMany
                (s.sharedKeys.keys.filter fun role => decide (role ≤ target.role))
            else s.staleSharedKeyRoles
          devices := s.devices.erase member.entity.bytes }

/-- One new key replaces the current one of its role and clears its mark. -/
def rotateKey (key : VerifiedSharedKey) : UserReplayState :=
  { s with
    sharedKeys := s.sharedKeys.insert key.role key
    sharedKeyHistory := s.sharedKeyHistory ++ [key]
    staleSharedKeyRoles := s.staleSharedKeyRoles.erase key.role }

def rotateKeys (rotated : List VerifiedSharedKey) : UserReplayState :=
  rotated.foldl rotateKey s

/-- The member change of a link, before its new keys are entered. -/
def applyMember (expectedHost : EntityId) (signer : VerifiedDevice)
    (rotated : List VerifiedSharedKey) (addedDevice : Option VerifiedDevice) :
    Except Error UserReplayState :=
  match change.changes.head? with
  | some member =>
    if member.role = .none then s.applyRevocation change member expectedHost signer rotated
    else
      match addedDevice with
      | none => .error (invalidTransition change .provisioning)
      | some device => .ok { s with devices := s.devices.insert device.id.bytes device }
  | none => do
    validateStandaloneChange change signer rotated s.sharedKeys
    .ok s

def applyTransition (expectedHost : EntityId) (signer : VerifiedDevice)
    (rotated : List VerifiedSharedKey) (addedDevice : Option VerifiedDevice) :
    Except Error UserReplayState := do
  let s ← s.applyMember change expectedHost signer rotated addedDevice
  .ok (s.rotateKeys rotated)

end

def replay (digest : Digest) (scheme : SignatureScheme) (s : UserReplayState) (link : UserLink)
    (change : UserGroupChange) (hepks : List Hepk) (expectedHost : EntityId) :
    Except Error UserReplayState :=
  if change.changes.length > 1 then .error (invalidTransition change .multipleMemberChanges)
  else do
    let signer ← okOr (invalidTransition change .unknownSigner) s.devices[change.signer.bytes]?
    let rotated ←
      validateSharedKeyRotations digest change hepks s.sharedKeys s.sharedKeyHistory
    let (addedDevice, provisioningSubkey) ←
      validateProvisioning digest change hepks signer s.devices s.sharedKeys rotated
    verifyTransitionSignatures digest scheme link signer rotated addedDevice provisioningSubkey
    s.applyTransition change expectedHost signer rotated addedDevice

end UserReplayState

/-! ## The eldest link -/

def persistentUserId (verifyKey : EntityId) : Except Error EntityId :=
  protocol (EntityId.fromBytes (verifyKey.withType entityUser))

def isEldest : ChangeMetadata → Bool
  | .eldest _ => true
  | _ => false

def verifyEldestBindings (eldest : UserEldest) (expectedUid expectedHost : EntityId) :
    Except Error Unit :=
  if eldest.uid ≠ expectedUid ∨ eldest.host ≠ expectedHost ∨ eldest.signer ≠ eldest.member ∨
      eldest.member ≠ eldest.memberVerifyKey ∨ eldest.memberRole ≠ .owner ∨
      eldest.memberSourceRole ≠ .none ∨ eldest.memberScopedHost.isSome ∨
      eldest.metadata.length < 3 ∨ ¬ (eldest.metadata[0]?.any isUsername) ∨
      ¬ (eldest.metadata[1]?.any isDeviceName) ∨ ¬ (eldest.metadata[2]?.any isEldest) then
    .error .userBinding
  else .ok ()

/-- The branch of the verifier's loop for the first link. -/
def verifyUserEldest (digest : Digest) (scheme : SignatureScheme) (link : UserLink)
    (change : UserGroupChange) (hepks : List Hepk) (expectedUid expectedHost : EntityId) :
    Except Error UserReplayState := do
  let eldest ← protocol link.decodeEldest
  verifyEldestBindings eldest expectedUid expectedHost
  if eldest.chainer.seqno ≠ 1 ∨ eldest.chainer.previous.isSome ∨ eldest.pukGeneration ≠ 1 ∨
      change.changes.length ≠ 1 ∨ change.sharedKeys.length ≠ 1 then .error .userBinding
  else do
    let persistentPuk ← persistentUserId eldest.pukVerifyKey
    let verifiers := eldest.pukVerifyKey :: (eldest.memberSubkey.toList ++ [eldest.signer])
    if persistentPuk ≠ expectedUid ∨ link.signatures.length ≠ verifiers.length then
      .error .userBinding
    else do
      verifySignatureStack digest scheme .signature link 0 (verifiers.zip link.signatures)
      let deviceHepk ← findHepk digest hepks eldest.memberHepkFingerprint
      let pukHepk ← findHepk digest hepks eldest.pukHepkFingerprint
      if ¬ userMemberHepkMatches eldest.member deviceHepk ∨ pukHepk.curve25519.isNone then
        .error .userBinding
      else
        .ok (.fromEldest ⟨eldest.member, .owner, deviceHepk, eldest.memberSubkey⟩
          ⟨.owner, 1, eldest.pukVerifyKey, pukHepk⟩)

/-! ## What an accepted link does -/

/-- The generation of the current key of a role, and zero where there is none. -/
def generationOf (sharedKeys : SharedKeyMap) (role : Role) : Nat :=
  match sharedKeys[role]? with
  | some key => key.generation.toNat
  | none => 0

/-- The keys an accepted link brings: in the order of their roles, one generation up, and made of
    material that was never used before. -/
structure Rotations (sharedKeys : SharedKeyMap)
    (history rotated : List VerifiedSharedKey) : Prop where
  sorted : rotated.Pairwise fun a b => a.role < b.role
  role_ne : ∀ key ∈ rotated, key.role ≠ .none
  generation : ∀ key ∈ rotated, key.generation.toNat = generationOf sharedKeys key.role + 1
  verifyKeys : (rotated.map (·.verifyKey)).Nodup
  hepks : (rotated.map (·.hepk)).Nodup
  fresh : ∀ key ∈ rotated, ∀ old ∈ history, old.verifyKey ≠ key.verifyKey ∧ old.hepk ≠ key.hepk

theorem Rotations.nil (sharedKeys : SharedKeyMap)
    (history : List VerifiedSharedKey) : Rotations sharedKeys history [] := by
  constructor <;> simp

variable {sharedKeys : SharedKeyMap}
  {history rotated : List VerifiedSharedKey} {digest : Digest} {change : UserGroupChange}
  {scheme : SignatureScheme} {signer : VerifiedDevice}

theorem Rotations.sublist {part : List VerifiedSharedKey} (h : Rotations sharedKeys history rotated)
    (hpart : part.Sublist rotated) : Rotations sharedKeys history part :=
  ⟨h.sorted.sublist hpart, fun key hkey => h.role_ne key (hpart.subset hkey),
    fun key hkey => h.generation key (hpart.subset hkey), h.verifyKeys.sublist (hpart.map _),
    h.hepks.sublist (hpart.map _), fun key hkey => h.fresh key (hpart.subset hkey)⟩

theorem generationFits_eq {addedRole : Option Role} {key : UserSharedKey}
    (h : generationFits sharedKeys addedRole key = true) :
    key.generation.toNat = generationOf sharedKeys key.role + 1 := by
  unfold generationFits at h
  unfold generationOf
  cases hcur : sharedKeys[key.role]? with
  | some current =>
    simp only [hcur, beq_iff_eq] at h
    exact checkedAddU64_eq_some.mp h
  | none =>
    simp only [hcur, Bool.and_eq_true, beq_iff_eq] at h
    simp [h.2]

theorem reusesKey_eq_false {keys : List VerifiedSharedKey} {verifyKey : EntityId} {hepk : Hepk}
    (h : ¬ reusesKey keys verifyKey hepk = true) :
    ∀ old ∈ keys, old.verifyKey ≠ verifyKey ∧ old.hepk ≠ hepk := by
  intro old hold
  refine ⟨fun heq => h ?_, fun heq => h ?_⟩ <;>
    exact List.any_eq_true.mpr ⟨old, hold, by simp [heq]⟩

variable {hepks : List Hepk}

theorem rotationLoop_rotations {addedRole lastRole : Option Role} {out : List VerifiedSharedKey}
    {keys : List UserSharedKey}
    (h : rotationLoop digest change hepks sharedKeys history addedRole lastRole rotated keys =
      .ok out) (hrot : Rotations sharedKeys history rotated)
    (hlast : ∀ key ∈ rotated, ∃ role, lastRole = some role ∧ key.role ≤ role) :
    Rotations sharedKeys history out := by
  induction keys generalizing lastRole rotated with
  | nil =>
    cases h
    exact hrot
  | cons key keys ih =>
    obtain ⟨hguard, h⟩ := ite_error_eq_ok.mp h
    simp only [not_or, not_not] at hguard
    obtain ⟨hnone, horder, hgen⟩ := hguard
    obtain ⟨hepk, -, h⟩ := bind_eq_ok.mp h
    obtain ⟨hnew, h⟩ := ite_error_eq_ok.mp h
    simp only [not_or] at hnew
    obtain ⟨-, hhistory, hrotated⟩ := hnew
    have hhistory := reusesKey_eq_false hhistory
    have hrotated := reusesKey_eq_false hrotated
    have hbelow : ∀ old ∈ rotated, old.role < key.role := by
      intro old hold
      obtain ⟨role, rfl, hle⟩ := hlast old hold
      have hlt : ¬ key.role ≤ role := by simpa using horder
      exact lt_of_le_of_lt hle (lt_of_not_ge hlt)
    refine ih h ?_ ?_
    · refine ⟨?_, ?_, ?_, ?_, ?_, ?_⟩
      · rw [List.pairwise_append]
        exact ⟨hrot.sorted, List.pairwise_singleton _ _, by simpa using hbelow⟩
      · simpa using fun k hk => hk.elim (hrot.role_ne k) (fun heq => heq ▸ hnone)
      · intro k hk
        rcases List.mem_append.mp hk with hk | hk
        · exact hrot.generation k hk
        · rw [List.mem_singleton.mp hk]
          exact generationFits_eq hgen
      · rw [List.map_append, List.nodup_append]
        refine ⟨hrot.verifyKeys, by simp, ?_⟩
        simpa using fun k hk => (hrotated k hk).1
      · rw [List.map_append, List.nodup_append]
        refine ⟨hrot.hepks, by simp, ?_⟩
        simpa using fun k hk => (hrotated k hk).2
      · intro k hk
        rcases List.mem_append.mp hk with hk | hk
        · exact hrot.fresh k hk
        · rw [List.mem_singleton.mp hk]
          exact hhistory
    · intro k hk
      refine ⟨key.role, rfl, ?_⟩
      rcases List.mem_append.mp hk with hk | hk
      · exact (hbelow k hk).le
      · rw [List.mem_singleton.mp hk]

theorem validateSharedKeyRotations_rotations
    (h : validateSharedKeyRotations digest change hepks sharedKeys history = .ok rotated) :
    Rotations sharedKeys history rotated :=
  rotationLoop_rotations h (.nil ..) (by simp)

/-- A signature of the stack verifies under the entity. -/
def SignedBy (digest : Digest) (scheme : SignatureScheme) (link : UserLink) (id : EntityId) :
    Prop :=
  ∃ index signature bytes, link.signatures[index]? = some signature ∧
    link.signingBytes index = .ok bytes ∧
    verifyTyped digest scheme id signature linkOuterV1TypeId bytes = .ok ()

variable {link : UserLink}

theorem verifySignatureStack_signedBy {onError : Crypto.Error → Error}
    {stack : List (EntityId × Signature)} {index : Nat}
    (h : verifySignatureStack digest scheme onError link index stack = .ok ())
    (hstack : ∀ i entry, stack[i]? = some entry → link.signatures[index + i]? = some entry.2) :
    ∀ entry ∈ stack, SignedBy digest scheme link entry.1 := by
  induction stack generalizing index with
  | nil => simp
  | cons entry stack ih =>
    obtain ⟨verifier, signature⟩ := entry
    obtain ⟨bytes, hbytes, h⟩ := bind_eq_ok.mp h
    obtain ⟨_, hverify, h⟩ := bind_eq_ok.mp h
    have hrest := ih h fun i entry hentry => by
      have := hstack (i + 1) entry hentry
      rwa [← Nat.add_assoc, Nat.add_right_comm] at this
    intro entry hentry
    rcases List.mem_cons.mp hentry with rfl | hentry
    · exact ⟨index, signature, bytes, hstack 0 _ rfl, protocol_eq_ok.mp hbytes,
        mapError_eq_ok.mp hverify⟩
    · exact hrest entry hentry

/-- Every verifier of an accepted stack has signed. -/
theorem signedBy_of_stack {onError : Crypto.Error → Error} {verifiers : List EntityId}
    {verifier : EntityId} (hlen : link.signatures.length = verifiers.length)
    (h : verifySignatureStack digest scheme onError link 0 (verifiers.zip link.signatures) =
      .ok ()) (hmem : verifier ∈ verifiers) : SignedBy digest scheme link verifier := by
  obtain ⟨i, hi, rfl⟩ := List.getElem_of_mem hmem
  have hsig : i < link.signatures.length := hlen ▸ hi
  have hentry : (verifiers[i], link.signatures[i]) ∈ verifiers.zip link.signatures := by
    rw [← List.getElem_zip (h := by simpa using ⟨hi, hsig⟩)]
    exact List.getElem_mem _
  refine verifySignatureStack_signedBy h (fun i entry hentry => ?_) _ hentry
  rw [Nat.zero_add]
  exact (List.getElem?_zip_eq_some.mp hentry).2

theorem verifyTransitionSignatures_signer {addedDevice : Option VerifiedDevice}
    {provisioningSubkey : Option EntityId}
    (h : verifyTransitionSignatures digest scheme link signer rotated addedDevice
      provisioningSubkey = .ok ()) : SignedBy digest scheme link signer.id := by
  obtain ⟨hlen, h⟩ := ite_error_eq_ok.mp h
  exact signedBy_of_stack (not_not.mp hlen).symm h (by simp [transitionVerifiers])

/-- What `validateProvisioning` has checked of an added device. -/
theorem validateProvisioning_added {device : VerifiedDevice} {devices : DeviceMap}
    {subkey : Option EntityId}
    (h : validateProvisioning digest change hepks signer devices sharedKeys rotated =
      .ok (some device, subkey)) : signer.role = .owner ∧ device.id.bytes ∉ devices := by
  unfold validateProvisioning at h
  split at h
  · cases h
  · rename_i member _
    obtain ⟨hrefused, h⟩ := ite_error_eq_ok.mp h
    split at h
    · cases h
    · obtain ⟨-, h⟩ := ite_error_eq_ok.mp h
      obtain ⟨hepk, -, h⟩ := bind_eq_ok.mp h
      obtain ⟨-, h⟩ := ite_error_eq_ok.mp h
      cases h
      simp only [provisioningRefused, Bool.or_eq_true, not_or, decide_eq_true_eq,
        not_not] at hrefused
      refine ⟨hrefused.1.1.1.1.1.1.1.1, ?_⟩
      have hnew := hrefused.1.1.1.1.1.2
      rwa [ExtTreeMap.contains_iff_mem] at hnew

namespace UserReplayState

/-- The device that the link removes, and who may do that. -/
structure Revokes (s : UserReplayState) (member : UserMemberChange) (signer target : VerifiedDevice)
    (rotated : List VerifiedSharedKey) : Prop where
  target_eq : s.devices[member.entity.bytes]? = some target
  owner : signer.role = .owner
  /-- Every key the device could read is replaced, unless the device removes itself. -/
  replaced : target.id ≠ signer.id → ∀ role ∈ s.sharedKeys, role ≤ target.role →
    ∃ key ∈ rotated, key.role = role
  /-- A device that removes itself replaces nothing. -/
  self : target.id = signer.id → rotated = []
  notLast : target.role = .owner → s.ownerCount ≠ 1

/-- The state without the device; the keys a device could read that removed itself are marked. -/
def revoke (s : UserReplayState) (member : UserMemberChange) (signer target : VerifiedDevice) :
    UserReplayState :=
  { s with
    staleSharedKeyRoles :=
      if target.id == signer.id then
        s.staleSharedKeyRoles.insertMany
          (s.sharedKeys.keys.filter fun role => decide (role ≤ target.role))
      else s.staleSharedKeyRoles
    devices := s.devices.erase member.entity.bytes }

theorem leavesKey_eq_false {upper : Role} (h : ¬ leavesKey sharedKeys upper rotated = true)
    {role : Role} (hrole : role ∈ sharedKeys) (hle : role ≤ upper) :
    ∃ key ∈ rotated, key.role = role := by
  by_contra hno
  refine h (List.any_eq_true.mpr ⟨role, ExtTreeMap.mem_keys.mpr hrole, ?_⟩)
  simp only [hle, decide_true, Bool.true_and, Bool.not_eq_true']
  rw [List.any_eq_false]
  intro key hkey heq
  exact hno ⟨key, hkey, beq_iff_eq.mp heq⟩

theorem applyRevocation_eq_ok {s s' : UserReplayState} {member : UserMemberChange}
    {expectedHost : EntityId}
    (h : s.applyRevocation change member expectedHost signer rotated = .ok s') :
    ∃ target, s.Revokes member signer target rotated ∧ s' = s.revoke member signer target := by
  obtain ⟨-, h⟩ := ite_error_eq_ok.mp h
  split at h
  · cases h
  · rename_i target htarget
    obtain ⟨hguard, h⟩ := ite_error_eq_ok.mp h
    obtain ⟨hlast, h⟩ := ite_error_eq_ok.mp h
    simp only [not_or, not_and, not_not, beq_iff_eq] at hguard
    obtain ⟨hself, howner, hleaves⟩ := hguard
    cases h
    refine ⟨target,
      ⟨htarget, howner, fun hne role hrole hle => ?_, fun heq => ?_, fun htop hone => ?_⟩,
      rfl⟩
    · exact leavesKey_eq_false (hleaves hne) hrole hle
    · rw [heq, beq_self_eq_true, eq_comm, List.isEmpty_iff] at hself
      exact hself
    · exact hlast ⟨htop, hone⟩

/-- The three things an accepted link can do. -/
inductive Replayed (s : UserReplayState) (change : UserGroupChange) (signer : VerifiedDevice)
    (rotated : List VerifiedSharedKey) : UserReplayState → Prop
  | provision (member : UserMemberChange) (device : VerifiedDevice)
      (hchange : change.changes = [member]) (hrole : member.role ≠ .none)
      (howner : signer.role = .owner) (hnew : device.id.bytes ∉ s.devices) :
      Replayed s change signer rotated
        ({ s with devices := s.devices.insert device.id.bytes device }.rotateKeys rotated)
  | revocation (member : UserMemberChange) (target : VerifiedDevice)
      (hchange : change.changes = [member]) (hrole : member.role = .none)
      (hrevokes : s.Revokes member signer target rotated) :
      Replayed s change signer rotated ((s.revoke member signer target).rotateKeys rotated)
  | standalone (hchange : change.changes = []) (howner : rotated ≠ [] → signer.role = .owner) :
      Replayed s change signer rotated (s.rotateKeys rotated)

theorem validateStandaloneChange_owner
    (h : validateStandaloneChange change signer rotated sharedKeys = .ok ()) (hne : rotated ≠ []) :
    signer.role = .owner := by
  unfold validateStandaloneChange at h
  split at h
  · rename_i hvalid
    unfold standaloneValid at hvalid
    rw [List.getLast?_eq_getLast_of_ne_nil hne] at hvalid
    simp only [Bool.and_eq_true, decide_eq_true_eq] at hvalid
    exact hvalid.1.1
  · cases h

theorem replay_cases {s s' : UserReplayState} {expectedHost : EntityId}
    (h : s.replay digest scheme link change hepks expectedHost = .ok s') :
    ∃ signer rotated, s.devices[change.signer.bytes]? = some signer ∧
      Rotations s.sharedKeys s.sharedKeyHistory rotated ∧
      SignedBy digest scheme link signer.id ∧ s.Replayed change signer rotated s' := by
  obtain ⟨hcount, h⟩ := ite_error_eq_ok.mp h
  obtain ⟨signer, hsigner, h⟩ := bind_eq_ok.mp h
  obtain ⟨rotated, hrotated, h⟩ := bind_eq_ok.mp h
  obtain ⟨⟨added, subkey⟩, hadded, h⟩ := bind_eq_ok.mp h
  obtain ⟨_, hsigned, h⟩ := bind_eq_ok.mp h
  obtain ⟨s₁, hmember, h⟩ := bind_eq_ok.mp h
  cases h
  refine ⟨signer, rotated, okOr_eq_ok.mp hsigner, validateSharedKeyRotations_rotations hrotated,
    verifyTransitionSignatures_signer hsigned, ?_⟩
  unfold applyMember at hmember
  cases hchanges : change.changes with
  | nil =>
    rw [hchanges] at hmember
    obtain ⟨_, hvalid, hmember⟩ := bind_eq_ok.mp hmember
    cases hmember
    exact .standalone hchanges (validateStandaloneChange_owner hvalid)
  | cons member rest =>
    have hrest : rest = [] := by
      rw [hchanges, List.length_cons] at hcount
      exact List.length_eq_zero_iff.mp (by omega)
    subst hrest
    rw [hchanges] at hmember
    simp only [List.head?_cons] at hmember
    split at hmember
    · rename_i hnone
      obtain ⟨target, hrevokes, rfl⟩ := applyRevocation_eq_ok hmember
      exact .revocation member target hchanges hnone hrevokes
    · rename_i hrole
      cases added with
      | none => cases hmember
      | some device =>
        cases hmember
        obtain ⟨howner, hnew⟩ := validateProvisioning_added hadded
        exact .provision member device hchanges hrole howner hnew

end UserReplayState

end Foks.Verify
