/-
  The commit of a team link (`foks-server-db`, `team.rs`): the founding of a team, with its header,
  or an edit of it. One transaction stores the link, a roster in the place of the one before, the
  new keys, their parcels and the tokens of remote members, and publishes a root.

  The state of invitations, the grants to view a team from another host, the seed chain boxes and
  the removal boxes are left out: no other table is read from them, and they can only refuse a
  commit.
-/
import Foks.Lib.Reach
import Foks.ServerDb.Generic

namespace Foks.ServerDb

open Foks.Lib Foks.Crypto Foks.Proto Foks.Verify

structure TeamHeader where
  kind : UInt8
  hostId : EntityId
  normalizedName : Option (List UInt8)
  nameSequence : UInt64
  nameCommitmentKey : Option (FixedBytes 16)
  reservationToken : Option (FixedBytes 17)
  reservationExpiresAt : Option UInt64
  subchainTreeLocationSeed : Hash
  memberLoadFloor : Role

structure TeamParcelMutation where
  party : EntityId
  senderId : EntityId
  targetRole : Role
  role : Role
  generation : UInt64
  parcel : PukParcel
  deriving DecidableEq

structure TeamMutation where
  teamId : EntityId
  signerCredentialId : EntityId
  header : Option TeamHeader
  expectedSequence : UInt64
  expectedTailHash : Option Hash
  linkHash : Hash
  link : UserLink
  nextTreeLocation : Hash
  members : List TeamMember
  sharedKeys : List VerifiedSharedKey
  parcels : List TeamParcelMutation
  remoteMemberViewTokens : List (TeamRemoteMemberViewTokenInner × FixedBytes 17)
  localViewPermissions : List (EntityId × Role)
  requiredLocalViewPermissions : List EntityId
  genericLink : Option GenericLinkMutation
  publication : Publication
  idempotencyKey : List UInt8
  requestHash : Hash
  response : List UInt8
  now : UInt64
  idempotencyExpiresAt : UInt64

/-- The roles that a column for a role of a team takes. -/
def storableRole (role : Role) : Bool := role ≠ .none

/-- The reservation of a name under a token becomes the property of its owner. -/
def claimName (rows : List NameRow) (name : List UInt8) (token : FixedBytes 17)
    (sequence expiresAt now : UInt64) (owner : EntityId) : Option (List NameRow) :=
  if (rows.any fun row => row.normalizedName = name ∧ row.holder = .reserved token expiresAt ∧
      row.sequence = sequence) ∧ now < expiresAt then
    some (rows.map fun row =>
      if row.normalizedName = name then { row with holder := .owned owner } else row)
  else none

def TeamHeader.row (header : TeamHeader) (teamId : EntityId) : TeamRow where
  teamId := teamId
  kind := header.kind
  hostId := header.hostId
  normalizedName := header.normalizedName
  nameSequence := header.nameSequence
  nameCommitmentKey := header.nameCommitmentKey
  memberLoadFloor := header.memberLoadFloor

/-- The checks of the table `teams`. -/
def TeamRow.checked (row : TeamRow) : Bool :=
  storableRole row.memberLoadFloor ∧
    (row.kind = entityNamedTeam ∧ row.normalizedName.isSome ∧ row.nameSequence ≠ 0 ∧
        row.nameCommitmentKey.isSome ∨
      row.kind = entityAdHocTeam ∧ row.normalizedName = none ∧ row.nameSequence = 0 ∧
        row.nameCommitmentKey = none)

/-- The checks of the table `team_members`. -/
def TeamMember.checked (member : TeamMember) : Bool :=
  storableRole member.sourceRole ∧ storableRole member.role ∧ member.generation ≠ 0 ∧
    member.generation.toNat < 2 ^ 63

/-- The checks of the table `team_shared_keys`. -/
def checkedTeamKey (key : VerifiedSharedKey) : Bool :=
  storableRole key.role ∧ key.generation ≠ 0 ∧ key.generation.toNat < 2 ^ 63

/-- No scope, or the scope of the team's own host. -/
def TeamMember.isLocal (member : TeamMember) (host : EntityId) : Bool :=
  member.scopedHost = none ∨ member.scopedHost = some host

/-! ## The rows of a commit -/

namespace TeamMutation

section

variable (m : TeamMutation)

def chainRow : ChainRow where
  owner := m.teamId
  seqno := m.expectedSequence
  linkHash := m.linkHash
  link := m.link
  rootEpoch := m.publication.stored.epoch
  nextTreeLocation := m.nextTreeLocation

def memberRows : List TeamMemberRow := m.members.map (TeamMemberRow.mk m.teamId)

def keyRows : List SharedKeyRow :=
  m.sharedKeys.map fun key => ⟨m.teamId, key, m.publication.stored.epoch⟩

/-- The recipient is on the host that the parcel names, or on the team's. -/
def parcelRows (host : EntityId) : List TeamParcelRow :=
  m.parcels.map fun boxed =>
    { teamId := m.teamId, party := boxed.party, memberHost := boxed.parcel.targetHost.getD host,
      targetRole := boxed.targetRole, role := boxed.role, generation := boxed.generation,
      senderId := boxed.senderId, parcel := boxed.parcel }

def tokenRows : List RemoteViewTokenRow :=
  m.remoteMemberViewTokens.map fun token => ⟨m.teamId, token.1, token.2⟩

end

end TeamMutation

/-- The checks of the table `team_parcels`. -/
def TeamParcelRow.checked (row : TeamParcelRow) : Bool :=
  storableRole row.targetRole ∧ row.generation ≠ 0 ∧ row.generation.toNat < 2 ^ 63

variable {db' entered : Database} {team : TeamRow}

namespace Database

section

variable (db : Database)

def teamAt (team : EntityId) : Option TeamRow :=
  db.teams.find? fun row => row.teamId = team

def hasTeamOn (team host : EntityId) : Bool :=
  db.teams.any fun row => row.teamId = team ∧ row.hostId = host

/-! ## Nested teams -/

/-- The teams of a host that are local members of a team. -/
def nestedTeams (host team : EntityId) : List EntityId :=
  (db.teamMembers.filter fun row => row.teamId = team ∧ row.member.isLocal host ∧
    db.hasTeamOn row.member.party host).map (·.member.party)

/-- `local_team_reaches`: the recursive query over the rosters as they are stored. -/
def localTeamReaches (source target host : EntityId) : Bool :=
  target ∈ closeUnder (db.nestedTeams host) db.teamMembers.length [source]

/-! ## Admission -/

variable (m : TeamMutation)

def validateTeamMutation : Except Error Unit :=
  if m.expectedSequence = 0 ∨ db.config.maximumTeamChainLinks < m.expectedSequence ∨
      m.members = [] ∨ db.config.maximumTeamMembers < m.members.length ∨
      db.config.maximumTeamRoleBands < m.sharedKeys.length ∨
      db.config.maximumBoxesPerMutation < m.parcels.length ∨
      db.config.maximumBoxesPerMutation < m.remoteMemberViewTokens.length ∨
      (∃ token ∈ m.remoteMemberViewTokens,
        token.1.ptkGeneration = 0 ∨ token.1.ptkRole = .none) ∨
      m.idempotencyExpiresAt ≤ m.now then
    .error (.invalid "team mutation")
  else .ok ()

/-- A named team takes the name that was reserved for it. -/
def claimTeamName (header : TeamHeader) : Except Error (List NameRow) :=
  if header.kind = entityNamedTeam then do
    let name ← okOr (.invalid "missing named-team name") header.normalizedName
    let token ← okOr (.invalid "missing team-name reservation") header.reservationToken
    let expiry ← okOr (.invalid "missing team-name expiry") header.reservationExpiresAt
    let sequence ← sqlInteger header.nameSequence
    let expiry ← sqlInteger expiry
    let now ← sqlInteger m.now
    okOr .reservation (claimName db.teamNames name token sequence expiry now m.teamId)
  else .ok db.teamNames

/-- The founding: the name is claimed, the team and the seed of its membership chain stored. -/
def foundTeam (header : TeamHeader) : Except Error (Database × TeamRow) :=
  if m.expectedSequence ≠ 1 ∨ m.expectedTailHash.isSome then
    .error (.invalid "team creation sequence")
  else if db.config.maximumTeams ≤ db.teams.length then .error .quotaExceeded
  else do
    let teamNames ← db.claimTeamName m header
    let row := header.row m.teamId
    if row.checked = false then .error .constraint
    else do
      let teams ← okOr .constraint (insertRow TeamRow.teamId db.teams row)
      let subchainSeeds ← okOr .constraint
        (insertRow Prod.fst db.subchainSeeds (m.teamId, header.subchainTreeLocationSeed))
      .ok ({ db with teamNames, teams, subchainSeeds }, row)

/-- An edit: it continues the chain of a team that can be edited. -/
def editedTeam : Except Error TeamRow :=
  match (chainOf db.teamLinks m.teamId).getLast?, db.teamAt m.teamId with
  | some head, some team =>
    if saturatingAddU64 head.seqno 1 ≠ m.expectedSequence ∨
        m.expectedTailHash ≠ some head.linkHash then .error .staleRoot
    else if team.kind = entityAdHocTeam then .error (.invalid "ad-hoc teams are immutable")
    else .ok team
  | _, _ => .error (.invalid "unknown team mutation authority")

def enterTeam : Except Error (Database × TeamRow) :=
  match m.header with
  | some header => db.foundTeam m header
  | none => do
    let team ← db.editedTeam m
    .ok (db, team)

/-- Whether an entry can stand in the roster of a team: a local user exists, a local team exists on
    the host and does not reach the team, and anything remote is only looked at for its shape. -/
def validParty (team : EntityId) (host : EntityId) (member : TeamMember) : Bool :=
  if member.isLocal host then
    if member.party.entityType = entityUser then db.users.contains member.party
    else if isTeam member.party then
      db.hasTeamOn member.party host ∧ db.localTeamReaches member.party team host = false
    else false
  else
    (member.scopedHost.any fun scope => scope.entityType = entityHost) ∧
      (member.party.entityType = entityUser ∨ isTeam member.party)

def admitTeam : Except Error (Database × TeamRow) :=
  if db.activeDevice m.signerCredentialId = none then
    .error (.invalid "inactive team mutation signer")
  else if ∃ target ∈ m.requiredLocalViewPermissions,
      ∀ row ∈ db.viewPermissions, row.place ≠ (m.teamId, target) then
    .error (.invalid "local invitation view grant missing")
  else do
    db.checkHead m.publication
    let (db, team) ← db.enterTeam m
    if m.teamId.entityType ≠ team.kind ∨ team.hostId.entityType ≠ entityHost ∨
        (team.kind = entityAdHocTeam ∧ m.members.length ≠ 1) then
      .error (.invalid "team identity or founding roster")
    else if ∃ member ∈ m.members, db.validParty m.teamId team.hostId member = false then
      .error (.invalid "invalid local or remote team member")
    else .ok (db, team)

/-! ## Storing -/

def permit : Database :=
  let granted := m.localViewPermissions.map fun grant =>
    ViewPermissionRow.mk m.teamId grant.1 grant.2
  { db with viewPermissions :=
    granted.foldl (upsertRow ViewPermissionRow.place) db.viewPermissions }

def replaceRoster : Except Error Database :=
  if ∃ member ∈ m.members, member.checked = false then .error .constraint
  else do
    let teamMembers ← okOr .constraint (insertRows TeamMemberRow.place
      (db.teamMembers.filter fun row => row.teamId ≠ m.teamId) m.memberRows)
    .ok { db with teamMembers }

def addTeamKeys : Except Error Database :=
  if ∃ key ∈ m.sharedKeys, checkedTeamKey key = false then .error .constraint
  else do
    let teamKeys ← okOr (.invalid "conflicting team shared key")
      (insertExacts SharedKeyRow.place db.teamKeys m.keyRows)
    .ok { db with teamKeys }

/-- A parcel is for a key that is stored. -/
def addTeamParcels (host : EntityId) (m : TeamMutation) : Except Error Database :=
  if ∃ row ∈ m.parcelRows host, row.checked = false ∨
      ∀ key ∈ db.teamKeys, key.place ≠ (row.teamId, row.role, row.generation) then
    .error .constraint
  else do
    let teamParcels ← okOr (.invalid "conflicting team parcel")
      (insertExacts TeamParcelRow.place db.teamParcels (m.parcelRows host))
    .ok { db with teamParcels }

/-- The roster has an entry of the party scoped to the host. -/
def hasScopedMember (team : EntityId) (member : FqParty) : Bool :=
  db.teamMembers.any fun row => row.teamId = team ∧ row.member.party = member.party ∧
    row.member.scopedHost = some member.host

/-- Tokens of members that left are dropped, and each remote member has one in the end. -/
def addViewTokens (host : EntityId) (m : TeamMutation) : Except Error Database :=
  let kept := db.remoteViewTokens.filter fun row =>
    row.teamId ≠ m.teamId ∨ db.hasScopedMember m.teamId row.token.member
  if ∃ row ∈ m.tokenRows, db.hasScopedMember m.teamId row.token.member = false ∨
      row.token.member.host = host ∨ row.joinRequest.bytes.head? ≠ some 56 then
    .error (.invalid "remote member-view token binding")
  else
    let remoteViewTokens := m.tokenRows.foldl (upsertRow RemoteViewTokenRow.place) kept
    if ∃ row ∈ db.teamMembers, row.teamId = m.teamId ∧ ∃ scope ∈ row.member.scopedHost,
        scope ≠ host ∧ ∀ token ∈ remoteViewTokens,
          token.place ≠ (m.teamId, ⟨row.member.party, scope⟩) then
      .error (.invalid "remote member is missing its view-token box")
    else .ok { db with remoteViewTokens }

end

def insertOptionalGenericLink (digest : Digest) (db : Database) (link : Option GenericLinkMutation)
    (publicationEpoch : UInt64) : Except Error Database :=
  match link with
  | some link => insertGenericLink digest db link publicationEpoch
  | none => .ok db

def storeTeam (digest : Digest) (db : Database) (host : EntityId) (m : TeamMutation) :
    Except Error Database := do
  let _ ← sqlInteger m.expectedSequence
  let _ ← sqlInteger m.publication.stored.epoch
  let teamLinks ← okOr .constraint (insertRow ChainRow.place db.teamLinks m.chainRow)
  let db := { db.permit m with teamLinks }
  let db ← insertOptionalGenericLink digest db m.genericLink m.publication.stored.epoch
  let db ← db.replaceRoster m
  let db ← db.addTeamKeys m
  let db ← db.addTeamParcels host m
  db.addViewTokens host m

/-- A request that was answered before gets the same answer and changes nothing. -/
def commitTeamMutation (digest : Digest) (db : Database) (m : TeamMutation) :
    Except Error (Database × List UInt8) := do
  db.validateTeamMutation m
  match ← db.lookupReceipt m.idempotencyKey m.requestHash m.now with
  | some receipt => .ok (db, receipt.response)
  | none => do
    let (db, team) ← db.admitTeam m
    let db ← storeTeam digest db team.hostId m
    let db ← db.publish m.publication
    let db ← db.insertReceipt
      ⟨m.idempotencyKey, m.requestHash, m.response, m.now, m.idempotencyExpiresAt⟩
    .ok (db, m.response)

/-! ## What a commit does -/

variable {db : Database} {m : TeamMutation}

/-- A founding adds the team under a free identifier and the seed of its membership chain. -/
theorem foundTeam_eq_ok {header : TeamHeader} (h : db.foundTeam m header = .ok (entered, team)) :
    team = header.row m.teamId ∧ (∀ row ∈ db.teams, row.teamId ≠ m.teamId) ∧
      entered = { db with
        teamNames := entered.teamNames
        teams := db.teams ++ [team]
        subchainSeeds := db.subchainSeeds ++ [(m.teamId, header.subchainTreeLocationSeed)] } := by
  obtain ⟨-, h⟩ := ite_error_eq_ok.mp h
  obtain ⟨-, h⟩ := ite_error_eq_ok.mp h
  obtain ⟨teamNames, -, h⟩ := bind_eq_ok.mp h
  obtain ⟨-, h⟩ := ite_error_eq_ok.mp h
  obtain ⟨teams, hteams, h⟩ := bind_eq_ok.mp h
  obtain ⟨seeds, hseeds, h⟩ := bind_eq_ok.mp h
  obtain ⟨hfresh, rfl⟩ := insertRow_eq_some.mp (okOr_eq_ok.mp hteams)
  obtain ⟨-, rfl⟩ := insertRow_eq_some.mp (okOr_eq_ok.mp hseeds)
  cases h
  exact ⟨rfl, hfresh, rfl⟩

/-- An edit is of a team that is stored. -/
theorem editedTeam_eq_ok (h : db.editedTeam m = .ok team) : db.teamAt m.teamId = some team := by
  unfold editedTeam at h
  split at h
  · rename_i hteam
    obtain ⟨-, h⟩ := ite_error_eq_ok.mp h
    obtain ⟨-, h⟩ := ite_error_eq_ok.mp h
    cases h
    exact hteam
  · cases h

theorem enterTeam_eq_ok (h : db.enterTeam m = .ok (entered, team)) :
    (∃ header, db.foundTeam m header = .ok (entered, team)) ∨
      db.editedTeam m = .ok team ∧ entered = db := by
  unfold enterTeam at h
  split at h
  · exact .inl ⟨_, h⟩
  · obtain ⟨found, hfound, h⟩ := bind_eq_ok.mp h
    cases h
    exact .inr ⟨hfound, rfl⟩

/-- A commit checks the parties of the new roster and writes it. The database `entered` has the
    team, and `linked` has the links. -/
structure TeamCommitted (digest : Digest) (db entered linked : Database) (m : TeamMutation)
    (team : TeamRow) (db' : Database) : Prop where
  enter : db.enterTeam m = .ok (entered, team)
  parties : ∀ member ∈ m.members, entered.validParty m.teamId team.hostId member = true
  linked_eq : insertOptionalGenericLink digest
    { entered.permit m with teamLinks := entered.teamLinks ++ [m.chainRow] } m.genericLink
    m.publication.stored.epoch = .ok linked
  members_eq : insertRows TeamMemberRow.place
    (linked.teamMembers.filter fun row => row.teamId ≠ m.teamId) m.memberRows =
      some db'.teamMembers
  db'_eq : db' = { linked with
    teamMembers := db'.teamMembers
    teamKeys := db'.teamKeys
    teamParcels := db'.teamParcels
    remoteViewTokens := db'.remoteViewTokens
    roots := linked.roots ++ [m.publication.stored]
    receipts := db'.receipts }

theorem admitTeam_eq_ok (h : db.admitTeam m = .ok (entered, team)) :
    db.enterTeam m = .ok (entered, team) ∧
      ∀ member ∈ m.members, entered.validParty m.teamId team.hostId member = true := by
  obtain ⟨-, h⟩ := ite_error_eq_ok.mp h
  obtain ⟨-, h⟩ := ite_error_eq_ok.mp h
  obtain ⟨-, -, h⟩ := bind_eq_ok.mp h
  obtain ⟨⟨db₁, row⟩, henter, h⟩ := bind_eq_ok.mp h
  obtain ⟨-, h⟩ := ite_error_eq_ok.mp h
  obtain ⟨hparties, h⟩ := ite_error_eq_ok.mp h
  cases h
  simp only [not_exists, not_and, Bool.not_eq_false] at hparties
  exact ⟨henter, hparties⟩

theorem replaceRoster_eq_ok (h : db.replaceRoster m = .ok db') :
    insertRows TeamMemberRow.place (db.teamMembers.filter fun row => row.teamId ≠ m.teamId)
        m.memberRows = some db'.teamMembers ∧
      db' = { db with teamMembers := db'.teamMembers } := by
  obtain ⟨-, h⟩ := ite_error_eq_ok.mp h
  obtain ⟨teamMembers, hrows, h⟩ := bind_eq_ok.mp h
  cases h
  exact ⟨okOr_eq_ok.mp hrows, rfl⟩

theorem addTeamKeys_eq_ok (h : db.addTeamKeys m = .ok db') :
    db' = { db with teamKeys := db'.teamKeys } := by
  obtain ⟨-, h⟩ := ite_error_eq_ok.mp h
  obtain ⟨teamKeys, -, h⟩ := bind_eq_ok.mp h
  cases h
  rfl

theorem addTeamParcels_eq_ok {host : EntityId} (h : db.addTeamParcels host m = .ok db') :
    db' = { db with teamParcels := db'.teamParcels } := by
  obtain ⟨-, h⟩ := ite_error_eq_ok.mp h
  obtain ⟨teamParcels, -, h⟩ := bind_eq_ok.mp h
  cases h
  rfl

theorem addViewTokens_eq_ok {host : EntityId} (h : db.addViewTokens host m = .ok db') :
    db' = { db with remoteViewTokens := db'.remoteViewTokens } := by
  obtain ⟨-, h⟩ := ite_error_eq_ok.mp h
  obtain ⟨-, h⟩ := ite_error_eq_ok.mp h
  cases h
  rfl

/-- A request that is answered changes nothing, or it is committed. -/
theorem commitTeamMutation_eq_ok {digest : Digest} {response : List UInt8}
    (h : commitTeamMutation digest db m = .ok (db', response)) :
    db' = db ∨ ∃ entered linked team, TeamCommitted digest db entered linked m team db' := by
  obtain ⟨-, -, h⟩ := bind_eq_ok.mp h
  obtain ⟨receipt, -, h⟩ := bind_eq_ok.mp h
  cases receipt with
  | some receipt =>
    cases h
    exact .inl rfl
  | none =>
    obtain ⟨⟨entered, team⟩, hadmit, h⟩ := bind_eq_ok.mp h
    obtain ⟨stored, hstore, h⟩ := bind_eq_ok.mp h
    obtain ⟨published, hpublish, h⟩ := bind_eq_ok.mp h
    obtain ⟨final, hreceipt, h⟩ := bind_eq_ok.mp h
    cases h
    obtain ⟨henter, hparties⟩ := admitTeam_eq_ok hadmit
    obtain ⟨_, -, hstore⟩ := bind_eq_ok.mp hstore
    obtain ⟨_, -, hstore⟩ := bind_eq_ok.mp hstore
    obtain ⟨teamLinks, hlinks, hstore⟩ := bind_eq_ok.mp hstore
    obtain ⟨-, rfl⟩ := insertRow_eq_some.mp (okOr_eq_ok.mp hlinks)
    obtain ⟨linked, hlinked, hstore⟩ := bind_eq_ok.mp hstore
    obtain ⟨seated, hroster, hstore⟩ := bind_eq_ok.mp hstore
    obtain ⟨keyed, hkeys, hstore⟩ := bind_eq_ok.mp hstore
    obtain ⟨boxed, hparcels, htokens⟩ := bind_eq_ok.mp hstore
    obtain ⟨hmembers, hseated⟩ := replaceRoster_eq_ok hroster
    have hkeyed := addTeamKeys_eq_ok hkeys
    have hboxed := addTeamParcels_eq_ok hparcels
    have hstored := addViewTokens_eq_ok htokens
    have hpublished := publish_eq_ok hpublish
    have hfinal := insertReceipt_eq_ok hreceipt
    -- each stage is the one before with one table written, so the tables can be named
    generalize seated.teamMembers = members at hmembers hseated
    generalize keyed.teamKeys = keys at hkeyed
    generalize boxed.teamParcels = parcels at hboxed
    generalize stored.remoteViewTokens = tokens at hstored
    generalize db'.receipts = receipts at hfinal
    subst hseated hkeyed hboxed hstored hpublished hfinal
    exact .inr ⟨entered, linked, team, henter, hparties, hlinked, hmembers, rfl⟩

end Database

end Foks.ServerDb
