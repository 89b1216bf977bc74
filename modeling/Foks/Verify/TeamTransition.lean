/-
  Replay of team-chain links (`foks-verify`, `team.rs`).

  The replay state holds the roster, the current per-team keys (PTKs) by role, the role from which
  on members may load the team, and the index range of the team. The eldest link founds the team
  with four keys; each further link changes members of a named team and brings exactly the new keys
  that `validateTeamRotationSchedule` asks for. `TeamReplayState.replay_eq_ok` says what one
  accepted link has passed.
-/
import Foks.Verify.TeamRange
import Foks.Verify.UserTransition

namespace Foks.Verify

open Std (ExtTreeMap ExtTreeSet)
open Foks.Lib Foks.Crypto Foks.Proto

structure VerifiedTeamMemberState where
  party : EntityId
  scopedHost : Option EntityId
  sourceRole : Role
  role : Role
  generation : UInt64
  verifyKey : EntityId
  hepkFingerprint : Hash
  removalKeyCommitment : Option Hash
  indexRange : Option RationalRange
  deriving DecidableEq

abbrev TeamRoster := ExtTreeMap (List UInt8) VerifiedTeamMemberState compare

/-- What the loop over the links carries along. -/
structure TeamReplayState where
  members : TeamRoster
  sharedKeys : SharedKeyMap
  memberLoadFloor : Role
  indexRange : RationalRange

/-! ## Shared keys -/

/-- `u64::saturating_add`. -/
def saturatingAddU64 (a b : UInt64) : UInt64 := (checkedAddU64 a b).getD (UInt64.ofNat (2 ^ 64 - 1))

/-- The generation that the next key of a role has. -/
def expectedGeneration (current : SharedKeyMap) (role : Role) :
    UInt64 :=
  match current[role]? with
  | some old => saturatingAddU64 old.generation 1
  | none => 1

/-- The roles whose keys a team is founded with. -/
def eldestRoles : List Role := [.member (-0x4000), .member 0, .admin, .owner]

/-- The loop over the shared keys of a link. -/
def teamSharedKeyLoop (digest : Digest) (hepks : List Hepk)
    (current : SharedKeyMap) :
    Option Role → List UserSharedKey → Except Error (List VerifiedSharedKey)
  | _, [] => .ok []
  | prior, key :: keys =>
    if key.verifyKey.entityType ≠ entityPtkVerify ∨
        key.generation ≠ expectedGeneration current key.role ∨
        (prior.any fun prior => decide (key.role ≤ prior)) then .error .teamKeySchedule
    else do
      let hepk ← findHepk digest hepks key.hepkFingerprint
      let output ← teamSharedKeyLoop digest hepks current (some key.role) keys
      .ok (⟨key.role, key.generation, key.verifyKey, hepk⟩ :: output)

def validateTeamSharedKeys (digest : Digest) (change : TeamGroupChange) (hepks : List Hepk)
    (current : SharedKeyMap) (eldest : Bool) :
    Except Error (List VerifiedSharedKey) :=
  if eldest ∧ change.sharedKeys.map (fun key => (key.role, key.generation)) ≠
      eldestRoles.map (fun role => (role, 1)) then .error .teamKeySchedule
  else teamSharedKeyLoop digest hepks current none change.sharedKeys

/-- The keys a link introduced replace those of their roles. -/
def introduceKeys (current : SharedKeyMap)
    (introduced : List VerifiedSharedKey) : SharedKeyMap :=
  insertEach current (introduced.map fun key => (key.role, key))

/-! ## Members -/

def teamMemberKey (party : EntityId) (scopedHost : Option EntityId) (sourceRole : Role) :
    List UInt8 :=
  party.bytes ++ (scopedHost.elim [] (·.bytes)) ++ toBE 8 sourceRole.protocolValue.toNat ++
    signedToBE 2 (sourceRole.visibility.getD 0).toInt

/-- The place in the roster that a member change is about. -/
def memberKey (member : TeamMemberChange) : List UInt8 :=
  teamMemberKey member.party member.scopedHost member.sourceRole

/-- A user's member key is a PUK and a team's is a PTK. -/
def sourceMatchesKey (party verifyKey : EntityId) : Bool :=
  if verifyKey.entityType = entityPukVerify then party.entityType == entityUser
  else if verifyKey.entityType = entityPtkVerify then isTeam party
  else false

/-- Teams have an index range and users have none. -/
def validateMemberRange (party : EntityId) (range : Option RationalRange) : Except Error Unit :=
  match range with
  | some range => if isTeam party then validateRationalRange range else .error .teamRoster
  | none => if party.entityType = entityUser then .ok () else .error .teamRoster

def verifiedTeamMember (change : TeamMemberChange) : Except Error VerifiedTeamMemberState := do
  let keys ← okOr .teamRoster change.keys
  if change.role = .none ∨ change.sourceRole = .none ∨ keys.generation = 0 ∨
      ¬ sourceMatchesKey change.party keys.verifyKey then .error .teamRoster
  else do
    validateMemberRange change.party keys.indexRange
    .ok ⟨change.party, change.scopedHost, change.sourceRole, change.role, keys.generation,
      keys.verifyKey, keys.hepkFingerprint, keys.removalKeyCommitment, keys.indexRange⟩

/-- The introduced keys sign first, then the signer. -/
def verifyTeamSignatureStack (digest : Digest) (scheme : SignatureScheme) (link : UserLink)
    (introduced : List VerifiedSharedKey) (signer : EntityId) : Except Error Unit :=
  let verifiers := introduced.map (·.verifyKey) ++ [signer]
  if link.signatures.length ≠ verifiers.length then .error .teamSignatureStack
  else
    verifySignatureStack digest scheme (fun _ => .teamSignatureStack) link 0
      (verifiers.zip link.signatures)

/-! ## The eldest link -/

def isTeamName : ChangeMetadata → Bool
  | .teamName _ => true
  | _ => false

def isTeamIndexRange : ChangeMetadata → Bool
  | .teamIndexRange _ => true
  | _ => false

section

variable (change : TeamGroupChange)

def teamEldestMemberLoadFloor (expectedTeam : EntityId) : Except Error Role :=
  let named := expectedTeam.entityType = entityNamedTeam
  let metadata : List ChangeMetadata :=
    if named then change.metadata.drop 1 else change.metadata
  if (named ∧ ¬ change.metadata[0]?.any isTeamName) ∨ ¬ metadata[0]?.any isEldest ∨
      ¬ metadata[1]?.any isTeamIndexRange then .error .teamBinding
  else
    match metadata.drop 2 with
    | [] => .ok (.member 0)
    | .memberLoadFloor role :: _ => .ok role
    | _ :: _ => .error .teamBinding

/-- What a founding member must be: of a named team it has a removal key, of an ad-hoc team it is a
    local user without one. -/
def foundingMemberRefused (named : Bool) (member : TeamMemberChange) : Bool :=
  let removal := member.keys.bind (·.removalKeyCommitment)
  if named then removal.isNone
  else member.scopedHost.isSome || decide (member.party.entityType ≠ entityUser) || removal.isSome

/-- The loop over the founding members, with the signer once it is found. -/
def foundingLoop (change : TeamGroupChange) (named : Bool) :
    TeamRoster → Option EntityId →
      List TeamMemberChange →
      Except Error (TeamRoster × Option EntityId)
  | members, signer, [] => .ok (members, signer)
  | members, signer, member :: rest =>
    if foundingMemberRefused named member ∨ members.contains (memberKey member) then
      .error .teamRoster
    else do
      let verified ← verifiedTeamMember member
      if member.party = change.signerOwner.party ∧
          member.sourceRole = change.signerOwner.sourceRole then
        if member.role ≠ .owner ∨ verified.verifyKey.bytes.tail ≠ change.signer.bytes.tail then
          .error .teamSigner
        else
          foundingLoop change named (members.insert (memberKey member) verified)
            (some change.signer) rest
      else foundingLoop change named (members.insert (memberKey member) verified) signer rest

/-- The roster and the load floor that the first link sets up. -/
def verifyTeamEldest (digest : Digest) (scheme : SignatureScheme) (link : UserLink)
    (change : TeamGroupChange) (expectedTeam : EntityId) (introduced : List VerifiedSharedKey) :
    Except Error (TeamRoster × Role) := do
  let memberLoadFloor ← teamEldestMemberLoadFloor change expectedTeam
  let named := expectedTeam.entityType == entityNamedTeam
  if change.chainer.seqno ≠ 1 ∨ change.chainer.previous.isSome ∨
      (named ∧ change.changes.length ≠ 1) then .error .teamBinding
  else do
    let admin ← okOr .teamBinding (introduced.find? fun key => key.role = .admin)
    let persistent ← protocol (EntityId.fromBytes
      (admin.verifyKey.withType expectedTeam.entityType))
    if persistent ≠ expectedTeam then .error .teamBinding
    else do
      let (members, signer) ← foundingLoop change named ∅ none change.changes
      let signer ← okOr .teamSigner signer
      verifyTeamSignatureStack digest scheme link introduced signer
      .ok (members, memberLoadFloor)

/-! ## Further links -/

variable (members : TeamRoster)

/-- Who may sign: the only member under the named party and source role, local, an admin or an
    owner. -/
def transitionSigner : Except Error VerifiedTeamMemberState :=
  match (sortedValues members).filter fun member =>
      member.party = change.signerOwner.party ∧
        member.sourceRole = change.signerOwner.sourceRole with
  | [signer] =>
    if signer.verifyKey.bytes.tail ≠ change.signer.bytes.tail ∨
        (signer.role.kind ≠ .admin ∧ signer.role.kind ≠ .owner) ∨ signer.scopedHost.isSome then
      .error .teamSigner
    else .ok signer
  | _ => .error .teamSigner

/-- A further link may rename the team once and shrink its range once. -/
def transitionMetadataFits (metadata : List ChangeMetadata) : Bool :=
  decide ((metadata.filter isTeamName).length ≤ 1) &&
    decide ((metadata.filter isTeamIndexRange).length ≤ 1) &&
    metadata.all fun entry => isTeamName entry || isTeamIndexRange entry

/-- A new member's range lies before the team's; that of a member stays or shrinks. -/
def memberRangeFits (prior next : Option RationalRange) (parent : RationalRange) :
    Except Error Bool :=
  match prior, next with
  | none, some next => rationalRangeStrictlyBefore next parent
  | none, none => .ok true
  | some _, none => .ok false
  | some previous, some next =>
    if previous = next then .ok true
    else
      bothOk ((rationalRangesEqual previous next).map (!·))
        (bothOk (rationalRangeIncludes previous next) (rationalRangeStrictlyBefore next parent))

/-- What a signer may not do with a member: touch one above, set back a generation, or change
    nothing. Remote members are not made admins. -/
def memberChangeRefused (signer verified : VerifiedTeamMemberState)
    (prior : Option VerifiedTeamMemberState) : Bool :=
  decide (signer.role < verified.role) ||
    (prior.any fun old => decide (signer.role < old.role)) ||
    (prior.any fun old => decide (verified.generation < old.generation)) ||
    (prior.any fun old =>
      decide (old.role = verified.role ∧ old.generation = verified.generation)) ||
    ((decide (verified.role.kind = .admin) || decide (verified.role.kind = .owner)) &&
      verified.scopedHost.isSome)

/-- The removal key is fixed when a member joins. -/
def removalKeyRefused (verified : VerifiedTeamMemberState)
    (prior : Option VerifiedTeamMemberState) : Bool :=
  prior.any fun old =>
    verified.removalKeyCommitment.any fun commitment => some commitment != old.removalKeyCommitment

/-- The entry that a change puts in place of the prior one. -/
def changedMember (signer : VerifiedTeamMemberState) (parentIndexRange : RationalRange)
    (member : TeamMemberChange) (prior : Option VerifiedTeamMemberState) :
    Except Error VerifiedTeamMemberState := do
  let verified ← verifiedTeamMember member
  if prior.isNone ∧ verified.removalKeyCommitment.isNone then .error .teamRoster
  else do
    let rangeIsValid ←
      memberRangeFits (prior.bind (·.indexRange)) verified.indexRange parentIndexRange
    if ¬ rangeIsValid ∨ removalKeyRefused verified prior then .error .teamRoster
    else
      let verified := { verified with
        removalKeyCommitment := prior.elim verified.removalKeyCommitment
          (·.removalKeyCommitment) }
      if memberChangeRefused signer verified prior then .error .teamRoster else .ok verified

/-- One member change: a removal, or a new or changed entry. -/
def applyMemberChange (signer : VerifiedTeamMemberState) (parentIndexRange : RationalRange)
    (members : TeamRoster)
    (member : TeamMemberChange) :
    Except Error (TeamRoster) :=
  let prior := members[memberKey member]?
  if member.role = .none then
    match prior with
    | none => .error .teamRoster
    | some old =>
      if member.keys.isSome ∨ signer.role < old.role then .error .teamRoster
      else .ok (members.erase (memberKey member))
  else do
    let verified ← changedMember signer parentIndexRange member prior
    .ok (members.insert (memberKey member) verified)

/-- The loop over the member changes. No place of the roster is changed twice. -/
def memberLoop (signer : VerifiedTeamMemberState) (parentIndexRange : RationalRange) :
    List (List UInt8) → List TeamMemberChange →
      TeamRoster →
      Except Error (TeamRoster)
  | _, [], members => .ok members
  | seen, member :: rest, members =>
    if memberKey member ∈ seen then .error .teamRoster
    else do
      let members ← applyMemberChange signer parentIndexRange members member
      memberLoop signer parentIndexRange (memberKey member :: seen) rest members

def replayTeamTransition (digest : Digest) (scheme : SignatureScheme) (link : UserLink)
    (change : TeamGroupChange) (introduced : List VerifiedSharedKey)
    (parentIndexRange : RationalRange)
    (members : TeamRoster) :
    Except Error (TeamRoster) :=
  if change.team.entityType = entityAdHocTeam then .error .teamRoster
  else do
    let signer ← transitionSigner change members
    if ¬ transitionMetadataFits change.metadata then .error .teamBinding
    else do
      verifyTeamSignatureStack digest scheme link introduced change.signer
      let members ← memberLoop signer parentIndexRange [] change.changes members
      if (sortedValues members).any fun member => member.role.kind = .owner then .ok members
      else .error .teamRoster

/-! ## The rotation schedule -/

/-- The generation a member has after a change, and zero after a removal. -/
def newGeneration (member : TeamMemberChange) : UInt64 := member.keys.elim 0 (·.generation)

variable (current : SharedKeyMap)

/-- The current keys that one member change asks to replace: all that the member could read, if it
    goes down or replaces its key in place; those above the new role if its key stays. -/
def exposedRoles (old : VerifiedTeamMemberState) (member : TeamMemberChange) : List Role :=
  let downgrade := decide (member.role < old.role)
  let generationAdvance :=
    decide (old.role = member.role) && decide (old.generation < newGeneration member)
  if downgrade || generationAdvance then
    current.keys.filter fun role =>
      decide (role ≤ old.role) &&
        (if old.generation = newGeneration member then decide (member.role < role) else true)
  else []

/-- The roles that one member change asks new keys for. -/
def requiredBy (member : TeamMemberChange) : List Role :=
  (if member.role ≠ .none ∧ ¬ current.contains member.role then [member.role] else []) ++
    (match members[memberKey member]? with
      | some old => exposedRoles current old member
      | none => [])

/-- The loop that collects the roles to be replaced. -/
def scheduleLoop (members : TeamRoster)
    (current : SharedKeyMap) :
    List (List UInt8) → ExtTreeSet Role compare → List TeamMemberChange →
      Except Error (ExtTreeSet Role compare)
  | _, required, [] => .ok required
  | seen, required, member :: rest =>
    if memberKey member ∈ seen then .error .teamRoster
    else
      scheduleLoop members current (memberKey member :: seen)
        (required.insertMany (requiredBy members current member)) rest

def validateTeamRotationSchedule (introduced : List VerifiedSharedKey) : Except Error Unit := do
  let required ← scheduleLoop members current [] ∅ change.changes
  if introduced.map (·.role) ≠ required.toList then .error .teamKeySchedule else .ok ()

end

/-! ## The state machine -/

namespace TeamReplayState

/-- The branch of the verifier's loop for the first link. -/
def fromEldest (digest : Digest) (scheme : SignatureScheme) (link : UserLink)
    (change : TeamGroupChange) (hepks : List Hepk) (expectedTeam : EntityId) :
    Except Error TeamReplayState := do
  let introduced ← validateTeamSharedKeys digest change hepks ∅ true
  let (members, memberLoadFloor) ←
    verifyTeamEldest digest scheme link change expectedTeam introduced
  let indexRange ← teamEldestIndexRange change
  .ok ⟨members, introduceKeys ∅ introduced, memberLoadFloor, indexRange⟩

/-- The branch for every further link. -/
def replay (digest : Digest) (scheme : SignatureScheme) (s : TeamReplayState) (link : UserLink)
    (change : TeamGroupChange) (hepks : List Hepk) : Except Error TeamReplayState := do
  let introduced ← validateTeamSharedKeys digest change hepks s.sharedKeys false
  let indexRange ← transitionIndexRange change s.indexRange
  validateTeamRotationSchedule change s.members s.sharedKeys introduced
  let members ← replayTeamTransition digest scheme link change introduced indexRange s.members
  .ok ⟨members, introduceKeys s.sharedKeys introduced, s.memberLoadFloor, indexRange⟩

end TeamReplayState

/-! ## What an accepted link has passed -/

theorem saturatingAddU64_one (a : UInt64) :
    (saturatingAddU64 a 1).toNat = min (a.toNat + 1) (2 ^ 64 - 1) := by
  unfold saturatingAddU64
  cases h : checkedAddU64 a 1 with
  | some c =>
    have hc := checkedAddU64_eq_some.mp h
    have hbound := c.toNat_lt
    simp only [Option.getD_some]
    change c.toNat = a.toNat + 1 at hc
    omega
  | none =>
    have hfull : ¬ a.toNat + 1 < 2 ^ 64 := by
      intro hfit
      simp [checkedAddU64] at h
      omega
    simp only [Option.getD_none, UInt64.toNat_ofNat']
    omega

variable {current : SharedKeyMap} {introduced : List VerifiedSharedKey}
  {change : TeamGroupChange} {members : TeamRoster}
  {member : TeamMemberChange} {verified signer : VerifiedTeamMemberState}
  {parentIndexRange : RationalRange} {hepks : List Hepk} {digest : Digest}

/-- The keys that pass the loop are in the order of their roles and each is the next of its
    role. -/
theorem teamSharedKeyLoop_eq_ok {prior : Option Role} {keys : List UserSharedKey}
    (h : teamSharedKeyLoop digest hepks current prior keys = .ok introduced) :
    introduced.Pairwise (fun a b => a.role < b.role) ∧
    (∀ key ∈ introduced, key.generation = expectedGeneration current key.role ∧
      ∀ role, prior = some role → role < key.role) := by
  induction keys generalizing prior introduced with
  | nil =>
    cases h
    simp
  | cons key keys ih =>
    obtain ⟨hguard, h⟩ := ite_error_eq_ok.mp h
    simp only [not_or, not_not] at hguard
    obtain ⟨-, hgen, horder⟩ := hguard
    obtain ⟨hepk, -, h⟩ := bind_eq_ok.mp h
    obtain ⟨output, houtput, h⟩ := bind_eq_ok.mp h
    cases h
    obtain ⟨hsorted, hall⟩ := ih houtput
    have hprior : ∀ role, prior = some role → role < key.role := by
      rintro role rfl
      simpa using horder
    refine ⟨List.pairwise_cons.mpr ⟨fun b hb => (hall b hb).2 _ rfl, hsorted⟩, fun b hb => ?_⟩
    rcases List.mem_cons.mp hb with rfl | hb
    · exact ⟨hgen, hprior⟩
    · exact ⟨(hall b hb).1, fun role hrole => (hprior role hrole).trans ((hall b hb).2 _ rfl)⟩

theorem validateTeamSharedKeys_eq_ok {eldest : Bool}
    (h : validateTeamSharedKeys digest change hepks current eldest = .ok introduced) :
    introduced.Pairwise (fun a b => a.role < b.role) ∧
    ∀ key ∈ introduced, key.generation = expectedGeneration current key.role := by
  obtain ⟨-, h⟩ := ite_error_eq_ok.mp h
  obtain ⟨hsorted, hall⟩ := teamSharedKeyLoop_eq_ok h
  exact ⟨hsorted, fun key hkey => (hall key hkey).1⟩

variable {changes : List TeamMemberChange} {seen : List (List UInt8)}

/-- The schedule collects what the member changes ask for, each about a place of its own. -/
theorem scheduleLoop_eq_ok {required out : ExtTreeSet Role compare}
    (h : scheduleLoop members current seen required changes = .ok out) :
    (changes.map memberKey).Nodup ∧ (∀ member ∈ changes, memberKey member ∉ seen) ∧
    ∀ role, role ∈ out ↔
      role ∈ required ∨ ∃ member ∈ changes, role ∈ requiredBy members current member := by
  induction changes generalizing seen required with
  | nil =>
    cases h
    simp
  | cons member rest ih =>
    obtain ⟨hseen, h⟩ := ite_error_eq_ok.mp h
    obtain ⟨hnodup, hfresh, hmem⟩ := ih h
    have hother : ∀ other ∈ rest, memberKey other ≠ memberKey member ∧ memberKey other ∉ seen := by
      intro other hother
      simpa using hfresh other hother
    refine ⟨?_, ?_, fun role => ?_⟩
    · rw [List.map_cons, List.nodup_cons]
      refine ⟨fun hmem => ?_, hnodup⟩
      obtain ⟨other, hrest, heq⟩ := List.mem_map.mp hmem
      exact (hother other hrest).1 heq
    · rw [List.forall_mem_cons]
      exact ⟨hseen, fun other hrest => (hother other hrest).2⟩
    · rw [hmem, ExtTreeSet.mem_insertMany_list, List.contains_iff_mem, List.exists_mem_cons_iff,
        or_assoc]

theorem validateTeamRotationSchedule_eq_ok
    (h : validateTeamRotationSchedule change members current introduced = .ok ()) :
    (change.changes.map memberKey).Nodup ∧
    ∀ role, role ∈ introduced.map (·.role) ↔
      ∃ member ∈ change.changes, role ∈ requiredBy members current member := by
  obtain ⟨required, hloop, h⟩ := bind_eq_ok.mp h
  obtain ⟨hroles, -⟩ := ite_error_eq_ok.mp h
  obtain ⟨hnodup, -, hmem⟩ := scheduleLoop_eq_ok hloop
  refine ⟨hnodup, fun role => ?_⟩
  rw [not_not.mp hroles, ExtTreeSet.mem_toList, hmem]
  simp

/-- What an entry that was read from a change is like. -/
structure MemberRead (member : TeamMemberChange) (verified : VerifiedTeamMemberState) : Prop where
  party : verified.party = member.party
  scopedHost : verified.scopedHost = member.scopedHost
  sourceRole : verified.sourceRole = member.sourceRole
  role : verified.role = member.role
  generation : verified.generation = newGeneration member
  role_ne : verified.role ≠ .none
  generation_ne : verified.generation ≠ 0
  range : validateMemberRange verified.party verified.indexRange = .ok ()

/-- An entry stands at the place of the change it was read from. -/
theorem MemberRead.key_eq (h : MemberRead member verified) :
    teamMemberKey verified.party verified.scopedHost verified.sourceRole = memberKey member := by
  rw [h.party, h.scopedHost, h.sourceRole, memberKey]

theorem verifiedTeamMember_eq_ok (h : verifiedTeamMember member = .ok verified) :
    MemberRead member verified := by
  obtain ⟨keys, hkeys, h⟩ := bind_eq_ok.mp h
  rw [okOr_eq_ok] at hkeys
  obtain ⟨hguard, h⟩ := ite_error_eq_ok.mp h
  obtain ⟨_, hrange, h⟩ := bind_eq_ok.mp h
  cases h
  simp only [not_or] at hguard
  refine ⟨rfl, rfl, rfl, rfl, ?_, hguard.1, hguard.2.2.1, hrange⟩
  simp [newGeneration, hkeys]

/-- What an entry that a signer puts in place of the prior one has passed. -/
structure Changed (signer : VerifiedTeamMemberState) (parentIndexRange : RationalRange)
    (member : TeamMemberChange) (prior : Option VerifiedTeamMemberState)
    (verified : VerifiedTeamMemberState) : Prop extends MemberRead member verified where
  range_fits : memberRangeFits (prior.bind (·.indexRange)) verified.indexRange parentIndexRange =
    .ok true
  removal : ∀ old, prior = some old → verified.removalKeyCommitment = old.removalKeyCommitment
  below : verified.role ≤ signer.role
  below_old : ∀ old, prior = some old → old.role ≤ signer.role
  generation_le : ∀ old, prior = some old → old.generation ≤ verified.generation
  differs : ∀ old, prior = some old →
    ¬ (old.role = verified.role ∧ old.generation = verified.generation)
  admin_local : verified.role.kind = .admin ∨ verified.role.kind = .owner →
    verified.scopedHost = none

theorem changedMember_eq_ok {prior : Option VerifiedTeamMemberState}
    (h : changedMember signer parentIndexRange member prior = .ok verified) :
    Changed signer parentIndexRange member prior verified := by
  obtain ⟨fresh, hfresh, h⟩ := bind_eq_ok.mp h
  obtain ⟨-, h⟩ := ite_error_eq_ok.mp h
  obtain ⟨valid, hvalid, h⟩ := bind_eq_ok.mp h
  obtain ⟨hrange, h⟩ := ite_error_eq_ok.mp h
  obtain ⟨hrefused, h⟩ := ite_error_eq_ok.mp h
  cases h
  obtain rfl : valid = true := not_not.mp (not_or.mp hrange).1
  have hread := verifiedTeamMember_eq_ok hfresh
  simp only [memberChangeRefused, Bool.or_eq_true, not_or, decide_eq_true_eq, not_lt,
    Bool.and_eq_true, not_and, Option.not_isSome_iff_eq_none] at hrefused
  obtain ⟨⟨⟨⟨hbelow, hold⟩, hgen⟩, hdiffers⟩, hlocal⟩ := hrefused
  refine ⟨⟨hread.party, hread.scopedHost, hread.sourceRole, hread.role, hread.generation,
    hread.role_ne, hread.generation_ne, hread.range⟩, hvalid, ?_, hbelow, ?_, ?_, ?_, hlocal⟩
  · rintro old rfl
    rfl
  · rintro old rfl
    simpa using hold
  · rintro old rfl
    simpa using hgen
  · rintro old rfl
    simpa using hdiffers

/-- What a member change makes of the entry it is about. -/
inductive MemberApplied (signer : VerifiedTeamMemberState) (parentIndexRange : RationalRange)
    (member : TeamMemberChange) :
    Option VerifiedTeamMemberState → Option VerifiedTeamMemberState → Prop
  | removed (old : VerifiedTeamMemberState) (hrole : member.role = .none)
      (hkeys : member.keys = none) (hsigner : old.role ≤ signer.role) :
      MemberApplied signer parentIndexRange member (some old) none
  | changed (prior : Option VerifiedTeamMemberState) (verified : VerifiedTeamMemberState)
      (hrole : member.role ≠ .none)
      (hchanged : changedMember signer parentIndexRange member prior = .ok verified) :
      MemberApplied signer parentIndexRange member prior (some verified)

theorem applyMemberChange_eq_ok {out : TeamRoster}
    (h : applyMemberChange signer parentIndexRange members member = .ok out) :
    MemberApplied signer parentIndexRange member members[memberKey member]?
      out[memberKey member]? ∧
    ∀ key, key ≠ memberKey member → out[key]? = members[key]? := by
  rcases ite_eq_ok h with ⟨hrole, h⟩ | ⟨hrole, h⟩
  · cases hprior : members[memberKey member]? with
    | none =>
      rw [hprior] at h
      cases h
    | some old =>
      rw [hprior] at h
      obtain ⟨hguard, h⟩ := ite_error_eq_ok.mp h
      cases h
      simp only [not_or, Option.not_isSome_iff_eq_none, not_lt] at hguard
      refine ⟨?_, fun key hkey => ?_⟩
      · rw [ExtTreeMap.getElem?_erase_self]
        exact .removed old hrole hguard.1 hguard.2
      · rw [ExtTreeMap.getElem?_erase, if_neg]
        rw [Std.compare_eq_iff_eq]
        exact hkey.symm
  · obtain ⟨verified, hverified, h⟩ := bind_eq_ok.mp h
    cases h
    refine ⟨?_, fun key hkey => ?_⟩
    · rw [ExtTreeMap.getElem?_insert_self]
      exact .changed _ verified hrole hverified
    · rw [getElem?_insert_self_or, if_neg hkey.symm]

/-- Every change of an accepted link is applied to the entry before the link, and the other entries
    stay. -/
theorem memberLoop_eq_ok {out : TeamRoster}
    (h : memberLoop signer parentIndexRange seen changes members = .ok out) :
    (∀ member ∈ changes, memberKey member ∉ seen) ∧
    (∀ member ∈ changes, MemberApplied signer parentIndexRange member
      members[memberKey member]? out[memberKey member]?) ∧
    ∀ key, key ∉ changes.map memberKey → out[key]? = members[key]? := by
  induction changes generalizing seen members with
  | nil =>
    cases h
    simp
  | cons member rest ih =>
    obtain ⟨hseen, h⟩ := ite_error_eq_ok.mp h
    obtain ⟨next, hnext, h⟩ := bind_eq_ok.mp h
    obtain ⟨happlied, hframe⟩ := applyMemberChange_eq_ok hnext
    obtain ⟨hfresh, hrest, hother⟩ := ih h
    have hne : ∀ other ∈ rest, memberKey other ≠ memberKey member ∧ memberKey other ∉ seen := by
      intro other hother
      simpa using hfresh other hother
    have hkey : memberKey member ∉ rest.map memberKey := by
      intro hmem
      obtain ⟨other, hother, heq⟩ := List.mem_map.mp hmem
      exact (hne other hother).1 heq
    refine ⟨?_, ?_, ?_⟩
    · rw [List.forall_mem_cons]
      exact ⟨hseen, fun other hother => (hne other hother).2⟩
    · rw [List.forall_mem_cons]
      refine ⟨?_, fun other hmem => ?_⟩
      · rw [hother _ hkey]
        exact happlied
      · have := hrest other hmem
        rwa [hframe _ (hne other hmem).1] at this
    · intro key hkeys
      rw [List.map_cons, List.mem_cons, not_or] at hkeys
      rw [hother key hkeys.2, hframe key hkeys.1]

namespace TeamReplayState

/-- What one accepted link has passed, and the state it leaves. -/
structure Replayed (s : TeamReplayState) (change : TeamGroupChange)
    (introduced : List VerifiedSharedKey) (signer : VerifiedTeamMemberState)
    (s' : TeamReplayState) : Prop where
  named : change.team.entityType ≠ entityAdHocTeam
  signer_eq : transitionSigner change s.members = .ok signer
  sorted : introduced.Pairwise fun a b => a.role < b.role
  generation : ∀ key ∈ introduced, key.generation = expectedGeneration s.sharedKeys key.role
  /-- The link brings a key exactly where a member change asks for one. -/
  required : ∀ role, role ∈ introduced.map (·.role) ↔
    ∃ member ∈ change.changes, role ∈ requiredBy s.members s.sharedKeys member
  sharedKeys : s'.sharedKeys = introduceKeys s.sharedKeys introduced
  distinct : (change.changes.map memberKey).Nodup
  applied : ∀ member ∈ change.changes, MemberApplied signer s'.indexRange member
    s.members[memberKey member]? s'.members[memberKey member]?
  untouched : ∀ key, key ∉ change.changes.map memberKey → s'.members[key]? = s.members[key]?
  owner : ∃ member ∈ sortedValues s'.members, member.role.kind = .owner

theorem replay_eq_ok {scheme : SignatureScheme} {s s' : TeamReplayState} {link : UserLink}
    (h : s.replay digest scheme link change hepks = .ok s') :
    ∃ introduced signer, Replayed s change introduced signer s' := by
  obtain ⟨introduced, hintroduced, h⟩ := bind_eq_ok.mp h
  obtain ⟨indexRange, -, h⟩ := bind_eq_ok.mp h
  obtain ⟨_, hschedule, h⟩ := bind_eq_ok.mp h
  obtain ⟨members, hmembers, h⟩ := bind_eq_ok.mp h
  cases h
  obtain ⟨hnamed, hmembers⟩ := ite_error_eq_ok.mp hmembers
  obtain ⟨signer, hsigner, hmembers⟩ := bind_eq_ok.mp hmembers
  obtain ⟨-, hmembers⟩ := ite_error_eq_ok.mp hmembers
  obtain ⟨_, -, hmembers⟩ := bind_eq_ok.mp hmembers
  obtain ⟨next, hloop, hmembers⟩ := bind_eq_ok.mp hmembers
  rcases ite_eq_ok hmembers with ⟨howner, hmembers⟩ | ⟨-, hmembers⟩
  · cases hmembers
    obtain ⟨hsorted, hgeneration⟩ := validateTeamSharedKeys_eq_ok hintroduced
    obtain ⟨hdistinct, hrequired⟩ := validateTeamRotationSchedule_eq_ok hschedule
    obtain ⟨-, happlied, huntouched⟩ := memberLoop_eq_ok hloop
    refine ⟨introduced, signer, hnamed, hsigner, hsorted, hgeneration, hrequired, rfl, hdistinct,
      happlied, huntouched, ?_⟩
    simpa using howner
  · cases hmembers

/-- The key that a link names as its signer has signed it. -/
theorem replay_signedBy {scheme : SignatureScheme} {s s' : TeamReplayState} {link : UserLink}
    (h : s.replay digest scheme link change hepks = .ok s') :
    SignedBy digest scheme link change.signer := by
  obtain ⟨introduced, -, h⟩ := bind_eq_ok.mp h
  obtain ⟨_, -, h⟩ := bind_eq_ok.mp h
  obtain ⟨_, -, h⟩ := bind_eq_ok.mp h
  obtain ⟨_, hmembers, -⟩ := bind_eq_ok.mp h
  obtain ⟨-, hmembers⟩ := ite_error_eq_ok.mp hmembers
  obtain ⟨_, -, hmembers⟩ := bind_eq_ok.mp hmembers
  obtain ⟨-, hmembers⟩ := ite_error_eq_ok.mp hmembers
  obtain ⟨_, hstack, -⟩ := bind_eq_ok.mp hmembers
  obtain ⟨hlen, hstack⟩ := ite_error_eq_ok.mp hstack
  exact signedBy_of_stack (not_not.mp hlen) hstack
    (List.mem_append_right _ (List.mem_singleton_self _))

end TeamReplayState

end Foks.Verify
