/-
  Teams that are members of teams: the graph of the local entries has no cycle.

  A commit puts a roster in the place of the one before and asks for each local team in it whether
  the edited team can be reached, over the rosters before the commit and over teams of the host
  only. That is enough: the local entries of a team lead to teams of its own host, so walks never
  leave the host (`LocalGraph.nested`), and a cycle of the new graph would pass the edited team and
  come back over old edges (`Acyclic.replace`).
-/
import Foks.ServerDb.Team
import Foks.Verify.UserInvariant

namespace Foks.ServerDb

open Foks.Lib Foks.Crypto Foks.Proto Relation

variable {team : TeamRow} {db' : Database} {digest : Digest}

namespace Database

/-- The roster of one team has an entry for the other that is local to the host it is stored
    with. -/
def LocalEdge (db : Database) (team member : EntityId) : Prop :=
  isTeam member ∧ ∃ row ∈ db.teamMembers, row.teamId = team ∧ row.member.party = member ∧
    ∃ stored ∈ db.teams, stored.teamId = team ∧ row.member.isLocal stored.hostId = true

/-- The roster of one team has an entry for the other without a scope or with the scope of the
    given host. -/
def EdgeOn (db : Database) (host team member : EntityId) : Prop :=
  isTeam member ∧ ∃ row ∈ db.teamMembers, row.teamId = team ∧ row.member.party = member ∧
    row.member.isLocal host = true

/-- What every commit keeps. -/
structure LocalGraph (db : Database) : Prop where
  keyed : Keyed TeamRow.teamId db.teams
  owned : ∀ row ∈ db.teamMembers, ∃ team ∈ db.teams, team.teamId = row.teamId
  /-- A local entry for a team is for one on the same host. -/
  nested : ∀ row ∈ db.teamMembers, isTeam row.member.party → ∀ team ∈ db.teams,
    team.teamId = row.teamId → row.member.isLocal team.hostId = true →
    db.hasTeamOn row.member.party team.hostId = true
  acyclic : Acyclic db.LocalEdge

variable {db : Database}

theorem hasTeamOn_iff {team host : EntityId} :
    db.hasTeamOn team host = true ↔ ∃ row ∈ db.teams, row.teamId = team ∧ row.hostId = host := by
  simp [hasTeamOn]

theorem mem_nestedTeams {host team member : EntityId} :
    member ∈ db.nestedTeams host team ↔ ∃ row ∈ db.teamMembers, row.teamId = team ∧
      row.member.isLocal host = true ∧ db.hasTeamOn member host = true ∧
      row.member.party = member := by
  simp only [nestedTeams, List.mem_map, List.mem_filter, decide_eq_true_eq]
  constructor
  · rintro ⟨row, ⟨hrow, hteam, hlocal, hon⟩, rfl⟩
    exact ⟨row, hrow, hteam, hlocal, hon, rfl⟩
  · rintro ⟨row, hrow, hteam, hlocal, hon, rfl⟩
    exact ⟨row, ⟨hrow, hteam, hlocal, hon⟩, rfl⟩

/-- The recursive query finds what can be reached. -/
theorem localTeamReaches_iff {source target host : EntityId} :
    db.localTeamReaches source target host = true ↔
      ReflTransGen (fun a b => b ∈ db.nestedTeams host a) source target := by
  have htargets : ∀ a b, b ∈ db.nestedTeams host a →
      b ∈ db.teamMembers.map fun row => row.member.party := by
    intro a b hb
    obtain ⟨row, hrow, -, -, -, rfl⟩ := mem_nestedTeams.mp hb
    exact List.mem_map_of_mem hrow
  rw [localTeamReaches, decide_eq_true_iff]
  exact mem_closeUnder_iff htargets (by rw [List.length_map])

namespace LocalGraph

/-- A walk over local entries that starts at a team of the host is one that the query follows. -/
theorem reaches (hgraph : db.LocalGraph) {host source target : EntityId}
    (hsource : db.hasTeamOn source host = true) (hwalk : ReflTransGen db.LocalEdge source target) :
    ReflTransGen (fun a b => b ∈ db.nestedTeams host a) source target := by
  induction hwalk using ReflTransGen.head_induction_on with
  | refl => exact .refl
  | @head a b hedge _ ih =>
    obtain ⟨hteam, row, hrow, hrowTeam, rfl, stored, hstored, hstoredId, hlocal⟩ := hedge
    obtain ⟨found, hfound, hfoundId, rfl⟩ := hasTeamOn_iff.mp hsource
    obtain rfl : stored = found :=
      hgraph.keyed.eq hstored hfound (hstoredId.trans hfoundId.symm)
    have hon := hgraph.nested row hrow hteam stored hstored (hstoredId.trans hrowTeam.symm) hlocal
    exact (ih hon).head (mem_nestedTeams.mpr ⟨row, hrow, hrowTeam, hlocal, hon, rfl⟩)

theorem addTeam (hgraph : db.LocalGraph) (hfresh : ∀ row ∈ db.teams, row.teamId ≠ team.teamId)
    (hteams : db'.teams = db.teams ++ [team]) (hmembers : db'.teamMembers = db.teamMembers) :
    db'.LocalGraph := by
  have hold : ∀ row ∈ db'.teamMembers, ∀ stored ∈ db'.teams, stored.teamId = row.teamId →
      stored ∈ db.teams := by
    intro row hrow stored hstored hid
    rw [hmembers] at hrow
    rw [hteams, List.mem_append, List.mem_singleton] at hstored
    obtain ⟨owner, howner, hownerId⟩ := hgraph.owned row hrow
    rcases hstored with hstored | rfl
    · exact hstored
    · exact absurd (hownerId.trans hid.symm) (hfresh owner howner)
  refine ⟨?_, ?_, ?_, ?_⟩
  · rw [hteams]
    refine hgraph.keyed.append (keyed_singleton team) fun row hrow => ?_
    rw [List.mem_singleton.mp hrow]
    exact hfresh
  · intro row hrow
    obtain ⟨owner, howner, hid⟩ := hgraph.owned row (hmembers ▸ hrow)
    exact ⟨owner, hteams ▸ List.mem_append_left _ howner, hid⟩
  · intro row hrow hteam stored hstored hid hlocal
    have hon := hgraph.nested row (hmembers ▸ hrow) hteam stored (hold row hrow stored hstored hid)
      hid hlocal
    obtain ⟨nested, hnested, hnestedOn⟩ := hasTeamOn_iff.mp hon
    exact hasTeamOn_iff.mpr ⟨nested, hteams ▸ List.mem_append_left _ hnested, hnestedOn⟩
  · have hedges : ∀ a b, db'.LocalEdge a b → db.LocalEdge a b := by
      rintro a b ⟨hteam, row, hrow, hrowTeam, hparty, stored, hstored, hid, hlocal⟩
      exact ⟨hteam, row, hmembers ▸ hrow, hrowTeam, hparty, stored,
        hold row hrow stored hstored (hid.trans hrowTeam.symm), hid, hlocal⟩
    exact hgraph.acyclic.mono hedges

/-- The roster of one team is replaced by entries that were looked at. -/
theorem replaceRoster (hgraph : db.LocalGraph) {members : List TeamMember} (hteam : team ∈ db.teams)
    (hteams : db'.teams = db.teams)
    (hmembers : db'.teamMembers = (db.teamMembers.filter fun row => row.teamId ≠ team.teamId) ++
      members.map (TeamMemberRow.mk team.teamId))
    (hvalid : ∀ member ∈ members, db.validParty team.teamId team.hostId member = true) :
    db'.LocalGraph := by
  have hcases : ∀ row ∈ db'.teamMembers, row ∈ db.teamMembers ∧ row.teamId ≠ team.teamId ∨
      row.member ∈ members ∧ row.teamId = team.teamId := by
    intro row hrow
    rw [hmembers, List.mem_append, List.mem_filter, List.mem_map] at hrow
    rcases hrow with ⟨hrow, hne⟩ | ⟨member, hmember, rfl⟩
    · exact .inl ⟨hrow, by simpa using hne⟩
    · exact .inr ⟨hmember, rfl⟩
  have hnested : ∀ member ∈ members, isTeam member.party → member.isLocal team.hostId = true →
      db.hasTeamOn member.party team.hostId = true ∧
        db.localTeamReaches member.party team.teamId team.hostId = false := by
    intro member hmember hisTeam hlocal
    have hparty := hvalid member hmember
    have huser : member.party.entityType ≠ entityUser := by
      intro huser
      simp only [isTeam, huser] at hisTeam
      exact absurd hisTeam (by decide)
    simpa [validParty, hlocal, huser, hisTeam] using hparty
  refine ⟨hteams ▸ hgraph.keyed, ?_, ?_, ?_⟩
  · intro row hrow
    rcases hcases row hrow with ⟨hold, -⟩ | ⟨-, hid⟩
    · exact hteams ▸ hgraph.owned row hold
    · exact ⟨team, hteams ▸ hteam, hid.symm⟩
  · intro row hrow hisTeam stored hstored hid hlocal
    rw [hteams] at hstored
    rw [hasTeamOn, hteams, ← hasTeamOn]
    rcases hcases row hrow with ⟨hold, -⟩ | ⟨hnew, hrowTeam⟩
    · exact hgraph.nested row hold hisTeam stored hstored hid hlocal
    · obtain rfl : stored = team := hgraph.keyed.eq hstored hteam (hid.trans hrowTeam)
      exact (hnested row.member hnew hisTeam hlocal).1
  · refine Acyclic.replace hgraph.acyclic (?_ : ∀ a b, a ≠ team.teamId → _) ?_
    · rintro a b hne ⟨hisTeam, row, hrow, hrowTeam, hparty, stored, hstored, hid, hlocal⟩
      rcases hcases row hrow with ⟨hold, -⟩ | ⟨-, hrowNew⟩
      · exact ⟨hisTeam, row, hold, hrowTeam, hparty, stored, hteams ▸ hstored, hid, hlocal⟩
      · exact absurd (hrowTeam.symm.trans hrowNew) hne
    · rintro b ⟨hisTeam, row, hrow, hrowTeam, rfl, stored, hstored, hid, hlocal⟩ hback
      obtain rfl : stored = team := hgraph.keyed.eq (hteams ▸ hstored) hteam hid
      rcases hcases row hrow with ⟨-, hne⟩ | ⟨hnew, -⟩
      · exact hne hrowTeam
      · obtain ⟨hon, hnot⟩ := hnested row.member hnew hisTeam hlocal
        have hfound := localTeamReaches_iff.mpr (hgraph.reaches hon hback)
        rw [hnot] at hfound
        cases hfound

end LocalGraph

theorem enterTeam_localGraph {entered : Database} {m : TeamMutation} (hgraph : db.LocalGraph)
    (h : db.enterTeam m = .ok (entered, team)) :
    entered.LocalGraph ∧ team ∈ entered.teams ∧ team.teamId = m.teamId := by
  rcases enterTeam_eq_ok h with ⟨header, hfound⟩ | ⟨hedited, rfl⟩
  · obtain ⟨hrow, hfresh, hentered⟩ := foundTeam_eq_ok hfound
    have hid : team.teamId = m.teamId := by rw [hrow]; rfl
    have hteams : entered.teams = db.teams ++ [team] := by rw [hentered]
    have hmembers : entered.teamMembers = db.teamMembers := by rw [hentered]
    exact ⟨hgraph.addTeam (hid ▸ hfresh) hteams hmembers, by simp [hteams], hid⟩
  · have hfind := editedTeam_eq_ok hedited
    exact ⟨hgraph, List.mem_of_find?_eq_some hfind, by simpa using List.find?_some hfind⟩

theorem insertOptionalGenericLink_teams {linked : Database} {link : Option GenericLinkMutation}
    {epoch : UInt64} (h : insertOptionalGenericLink digest db link epoch = .ok linked) :
    linked = { db with genericLinks := linked.genericLinks } := by
  cases link with
  | none =>
    cases h
    rfl
  | some link =>
    rw [insertGenericLink_eq_ok h]

theorem TeamCommitted.localGraph {entered linked : Database} {m : TeamMutation}
    (h : TeamCommitted digest db entered linked m team db') (hgraph : db.LocalGraph) :
    db'.LocalGraph := by
  obtain ⟨hentered, hteam, hid⟩ := enterTeam_localGraph hgraph h.enter
  have hlinked := insertOptionalGenericLink_teams h.linked_eq
  have hteams : db'.teams = entered.teams := by rw [h.db'_eq, hlinked]; rfl
  have hmembers : linked.teamMembers = entered.teamMembers := by rw [hlinked]; rfl
  refine hentered.replaceRoster hteam hteams ?_ (hid ▸ h.parties)
  rw [insertRows_eq_some h.members_eq, hmembers, hid]
  rfl

/-! ## Runs -/

/-- Databases that follow one another: commits of team links, and in between whatever leaves the
    teams and their rosters alone. -/
inductive TeamRun (digest : Digest) (first : Database) : Database → Prop where
  | start : TeamRun digest first first
  | commit {db db' : Database} {m : TeamMutation} {response : List UInt8} :
      TeamRun digest first db → commitTeamMutation digest db m = .ok (db', response) →
      TeamRun digest first db'
  | other {db db' : Database} : TeamRun digest first db → db'.teams = db.teams →
      db'.teamMembers = db.teamMembers → TeamRun digest first db'

theorem LocalGraph.congr (hgraph : db.LocalGraph) (hteams : db'.teams = db.teams)
    (hmembers : db'.teamMembers = db.teamMembers) : db'.LocalGraph := by
  have hedge : db'.LocalEdge = db.LocalEdge := by
    funext a b
    simp only [LocalEdge, hteams, hmembers]
  refine ⟨hteams ▸ hgraph.keyed, by rw [hteams, hmembers]; exact hgraph.owned, ?_,
    hedge ▸ hgraph.acyclic⟩
  rw [hteams, hmembers]
  intro row hrow hisTeam team hteam hid hlocal
  rw [hasTeamOn, hteams]
  exact hgraph.nested row hrow hisTeam team hteam hid hlocal

theorem TeamRun.localGraph {first : Database} (hrun : TeamRun digest first db)
    (hfirst : first.LocalGraph) : db.LocalGraph := by
  induction hrun with
  | start => exact hfirst
  | commit _ hcommit ih =>
    rcases commitTeamMutation_eq_ok hcommit with rfl | ⟨entered, linked, team, hcommitted⟩
    · exact ih
    · exact hcommitted.localGraph ih
  | other _ hteams hmembers ih => exact ih.congr hteams hmembers

theorem localGraph_empty (hteams : db.teams = []) (hmembers : db.teamMembers = []) :
    db.LocalGraph := by
  refine ⟨by rw [hteams]; exact keyed_nil, by simp [hmembers], by simp [hmembers], ?_⟩
  intro x hcycle
  obtain ⟨b, ⟨-, row, hrow, -⟩, -⟩ := TransGen.head'_iff.mp hcycle
  rw [hmembers] at hrow
  cases hrow

/-- From a database without teams no run makes a cycle of local entries, whether an entry is local
    by the host that its team is stored with or, where all teams are stored with one host, by that
    host. -/
theorem TeamRun.acyclic {digest : Digest} {first db : Database} (hrun : TeamRun digest first db)
    (hteams : first.teams = []) (hmembers : first.teamMembers = []) :
    Acyclic db.LocalEdge ∧
      ∀ host, (∀ team ∈ db.teams, team.hostId = host) → Acyclic (db.EdgeOn host) := by
  have hgraph := hrun.localGraph (localGraph_empty hteams hmembers)
  refine ⟨hgraph.acyclic, fun host hhost => hgraph.acyclic.mono ?_⟩
  rintro a b ⟨hisTeam, row, hrow, hrowTeam, hparty, hlocal⟩
  obtain ⟨team, hteam, hid⟩ := hgraph.owned row hrow
  exact ⟨hisTeam, row, hrow, hrowTeam, hparty, team, hteam, hid.trans hrowTeam,
    (hhost team hteam).symm ▸ hlocal⟩

/-! ## A team below a team

A user founds a team and then a second one that has the first as a member. -/

namespace GraphSample

open LinkSample (key entity signature)

def host : EntityId := entity entityHost 7
def user : EntityId := entity entityUser 1
def device : EntityId := entity entityDevice 3
def inner : EntityId := entity entityNamedTeam 11
def outer : EntityId := entity entityNamedTeam 12

def rootAt (epoch : UInt64) (hash : Hash) : StoredRoot :=
  ⟨⟨epoch, 0, key 0, key 0, ⟨1, key 0⟩, []⟩, hash, ∅⟩

def token (name : UInt8) : FixedBytes 17 := .replicate 17 name

/-- A host with one user, whose device is active, and the names of two teams reserved. -/
def first : Database where
  config := .standard
  users := [user]
  devices := [⟨device, user, true, 1⟩]
  subchainSeeds := []
  genericLinks := []
  teamNames := [⟨[0x61], 1, .reserved (token 0x61) 9⟩, ⟨[0x62], 1, .reserved (token 0x62) 9⟩]
  teams := []
  teamLinks := []
  teamMembers := []
  teamKeys := []
  teamParcels := []
  remoteViewTokens := []
  viewPermissions := []
  roots := [rootAt 1 (key 1)]
  receipts := []

/-- The founding of a team with one member. -/
def found (team : EntityId) (name : UInt8) (member : EntityId) (epoch : UInt8) : TeamMutation where
  teamId := team
  signerCredentialId := device
  header := some ⟨entityNamedTeam, host, some [name], 1, some (.replicate 16 0),
    some (token name), some 9, key 0, .admin⟩
  expectedSequence := 1
  expectedTailHash := none
  linkHash := key epoch
  link := ⟨[], [signature], []⟩
  nextTreeLocation := key epoch
  members := [⟨member, none, .owner, .owner, 1, entity entityPukVerify 1, key 0, none⟩]
  sharedKeys := []
  parcels := []
  remoteMemberViewTokens := []
  localViewPermissions := []
  requiredLocalViewPermissions := []
  genericLink := none
  publication := ⟨⟨epoch.toUInt64, key epoch⟩, [],
    rootAt (epoch.toUInt64 + 1) (key (epoch + 1))⟩
  idempotencyKey := List.replicate 16 epoch
  requestHash := key epoch
  response := []
  now := 1
  idempotencyExpiresAt := 2

/-- The database after the two foundings. -/
def second : Except Error Database := do
  let (db, _) ← commitTeamMutation LinkSample.digest first (found inner 0x61 user 1)
  let (db, _) ← commitTeamMutation LinkSample.digest db (found outer 0x62 inner 2)
  .ok db

/-- What the second database is looked at for: an entry of the first team in the second. -/
def isNested (db : Database) : Bool :=
  (db.teamMembers.any fun row => row.teamId = outer ∧ row.member.party = inner ∧
      row.member.isLocal host) ∧
    (db.teams.any fun team => team.teamId = outer ∧ team.hostId = host) ∧
    db.teams.all fun team => team.hostId = host

/-- The second team has the first below it, and there is no cycle. -/
theorem second_acyclic : ∃ db, second = .ok db ∧ db.LocalEdge outer inner ∧
    Acyclic db.LocalEdge ∧ Acyclic (db.EdgeOn host) := by
  have hnested : second.toOption.any isNested = true := by decide +kernel
  cases hsecond : second with
  | error error =>
    rw [hsecond] at hnested
    cases hnested
  | ok db =>
    obtain ⟨⟨db₁, _⟩, hinner, h⟩ := bind_eq_ok.mp hsecond
    obtain ⟨⟨db₂, _⟩, houter, h⟩ := bind_eq_ok.mp h
    obtain rfl : db₂ = db := Except.ok.inj h
    obtain ⟨hlocal, hacyclic⟩ := TeamRun.acyclic ((TeamRun.start.commit hinner).commit houter)
      rfl rfl
    rw [hsecond] at hnested
    simp only [Except.toOption, Option.any_some, isNested, List.any_eq_true, List.all_eq_true,
      decide_eq_true_eq] at hnested
    obtain ⟨⟨row, hrow, hrowTeam, hparty, hrowLocal⟩, ⟨team, hteam, hid, hhost⟩, hall⟩ := hnested
    exact ⟨db₂, rfl, ⟨by decide, row, hrow, hrowTeam, hparty, team, hteam, hid, hhost ▸ hrowLocal⟩,
      hlocal, hacyclic host hall⟩

end GraphSample

end Database

end Foks.ServerDb
