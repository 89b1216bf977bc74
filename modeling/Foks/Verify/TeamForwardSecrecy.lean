/-
  Forward secrecy of the per-team keys.

  A party that leaves a team, replaces its key or goes down loses access: every current key it
  could read and may not read any more should be replaced by the same link. The schedule asks for
  this when a member goes down or replaces its key in place. It does not when a member goes up and
  replaces its key with the same link, so there the keys stay in use that the old key could read.
  `teamReplay_forwardSecret_iff` says exactly when an accepted link is forward secret.
-/
import Foks.Verify.TeamTransition
import Foks.Verify.UserInvariant

namespace Foks.Verify

open Std (ExtTreeMap)
open Foks.Lib Foks.Crypto Foks.Proto

/-! ## Invariant of the roster -/

namespace TeamReplayState

/-- Every entry stands at its own place, with a role and a key generation. -/
structure Valid (s : TeamReplayState) : Prop where
  member_key : ∀ (key : List UInt8) (member : VerifiedTeamMemberState),
    s.members[key]? = some member →
      teamMemberKey member.party member.scopedHost member.sourceRole = key
  member_role : ∀ (key : List UInt8) (member : VerifiedTeamMemberState),
    s.members[key]? = some member → member.role ≠ .none ∧ member.generation ≠ 0
  /-- Every key stands at its own role. -/
  key_role : ∀ (role : Role) (key : VerifiedSharedKey), s.sharedKeys[role]? = some key →
    key.role = role

end TeamReplayState

variable {change : TeamGroupChange}
  {members : TeamRoster}
  {introduced : List VerifiedSharedKey} {current : SharedKeyMap}
  {s s' : TeamReplayState} {signer : VerifiedTeamMemberState} {role : Role}

section

variable {P : List UInt8 → VerifiedTeamMemberState → Prop} {scheme : SignatureScheme}

theorem foundingLoop_entries {named : Bool}
    {out : TeamRoster} {signer found : Option EntityId}
    {changes : List TeamMemberChange}
    (h : foundingLoop change named members signer changes = .ok (out, found))
    (hverified : ∀ member verified, verifiedTeamMember member = .ok verified →
      P (memberKey member) verified)
    (hmembers : ∀ (key : List UInt8) (entry : VerifiedTeamMemberState),
      members[key]? = some entry → P key entry) :
    ∀ (key : List UInt8) (entry : VerifiedTeamMemberState), out[key]? = some entry →
    P key entry := by
  induction changes generalizing members signer with
  | nil =>
    cases h
    exact hmembers
  | cons member rest ih =>
    obtain ⟨-, h⟩ := ite_error_eq_ok.mp h
    obtain ⟨verified, hok, h⟩ := bind_eq_ok.mp h
    have hinsert : ∀ (key : List UInt8) (entry : VerifiedTeamMemberState),
        (members.insert (memberKey member) verified)[key]? = some entry → P key entry := by
      intro key entry hentry
      rw [getElem?_insert_self_or] at hentry
      split at hentry
      · rename_i hkey
        cases hentry
        exact hkey ▸ hverified member verified hok
      · exact hmembers key entry hentry
    rcases ite_eq_ok h with ⟨-, h⟩ | ⟨-, h⟩
    · obtain ⟨-, h⟩ := ite_error_eq_ok.mp h
      exact ih h hinsert
    · exact ih h hinsert

variable {digest : Digest}

/-- What holds of every member as it is read holds of every entry of the founding roster. -/
theorem verifyTeamEldest_entries {link : UserLink} {team : EntityId} {floor : Role}
    (h : verifyTeamEldest digest scheme link change team introduced = .ok (members, floor))
    (hread : ∀ member verified, verifiedTeamMember member = .ok verified →
      P (memberKey member) verified) (key : List UInt8) (entry : VerifiedTeamMemberState)
    (hentry : members[key]? = some entry) : P key entry := by
  obtain ⟨_, -, h⟩ := bind_eq_ok.mp h
  obtain ⟨-, h⟩ := ite_error_eq_ok.mp h
  obtain ⟨_, -, h⟩ := bind_eq_ok.mp h
  obtain ⟨_, -, h⟩ := bind_eq_ok.mp h
  obtain ⟨-, h⟩ := ite_error_eq_ok.mp h
  obtain ⟨⟨roster, signer⟩, hloop, h⟩ := bind_eq_ok.mp h
  obtain ⟨_, -, h⟩ := bind_eq_ok.mp h
  obtain ⟨_, -, h⟩ := bind_eq_ok.mp h
  cases h
  exact foundingLoop_entries hloop hread (by simp) key entry hentry

theorem introduceKeys_role
    (h : ∀ (role : Role) (key : VerifiedSharedKey), current[role]? = some key → key.role = role)
    (role : Role) (key : VerifiedSharedKey)
    (hkey : (introduceKeys current introduced)[role]? = some key) : key.role = role := by
  rcases getElem?_insertEach_cases hkey with hmem | hold
  · obtain ⟨_, _, heq⟩ := List.mem_map.mp hmem
    cases heq
    rfl
  · exact h role key hold

namespace TeamReplayState

theorem valid_of_eldest {link : UserLink} {hepks : List Hepk} {team : EntityId}
    (h : fromEldest digest scheme link change hepks team = .ok s) : s.Valid := by
  obtain ⟨introduced, -, h⟩ := bind_eq_ok.mp h
  obtain ⟨⟨members, floor⟩, heldest, h⟩ := bind_eq_ok.mp h
  obtain ⟨range, -, h⟩ := bind_eq_ok.mp h
  cases h
  refine ⟨?_, ?_, introduceKeys_role (by simp)⟩
  · exact verifyTeamEldest_entries heldest fun member verified hok =>
      (verifiedTeamMember_eq_ok hok).key_eq
  · exact verifyTeamEldest_entries heldest fun member verified hok =>
      ⟨(verifiedTeamMember_eq_ok hok).role_ne, (verifiedTeamMember_eq_ok hok).generation_ne⟩

/-- An entry after a link was there before, or a change of the link put it there. -/
theorem Replayed.member_cases (h : Replayed s change introduced signer s') {key : List UInt8}
    {entry : VerifiedTeamMemberState} (hentry : s'.members[key]? = some entry) :
    s.members[key]? = some entry ∨ ∃ member ∈ change.changes, memberKey member = key ∧
      changedMember signer s'.indexRange member s.members[key]? = .ok entry := by
  by_cases hkey : key ∈ change.changes.map memberKey
  · obtain ⟨member, hmember, rfl⟩ := List.mem_map.mp hkey
    refine .inr ⟨member, hmember, rfl, ?_⟩
    have happlied := h.applied member hmember
    rw [hentry] at happlied
    generalize s.members[memberKey member]? = prior at happlied ⊢
    cases happlied with
    | changed _ _ _ hchanged => exact hchanged
  · rw [h.untouched key hkey] at hentry
    exact .inl hentry

theorem Valid.replayed (hs : s.Valid) (h : Replayed s change introduced signer s') : s'.Valid := by
  refine ⟨fun key entry hentry => ?_, fun key entry hentry => ?_, ?_⟩
  · rcases h.member_cases hentry with hold | ⟨member, -, rfl, hchanged⟩
    · exact hs.member_key key entry hold
    · exact (changedMember_eq_ok hchanged).key_eq
  · rcases h.member_cases hentry with hold | ⟨member, -, rfl, hchanged⟩
    · exact hs.member_role key entry hold
    · have hentry := changedMember_eq_ok hchanged
      exact ⟨hentry.role_ne, hentry.generation_ne⟩
  · rw [h.sharedKeys]
    exact introduceKeys_role hs.key_role

theorem Valid.replay {link : UserLink} {hepks : List Hepk} (hs : s.Valid)
    (h : s.replay digest scheme link change hepks = .ok s') : s'.Valid := by
  obtain ⟨introduced, signer, hreplayed⟩ := replay_eq_ok h
  exact hs.replayed hreplayed

end TeamReplayState

/-! ## Runs -/

/-- A link with what its replay reads besides the state. -/
structure TeamStep where
  link : UserLink
  change : TeamGroupChange
  hepks : List Hepk

/-- The replay of links in order. -/
def teamReplayAll (digest : Digest) (scheme : SignatureScheme) (s : TeamReplayState)
    (steps : List TeamStep) : Except Error TeamReplayState :=
  steps.foldlM (fun s step => s.replay digest scheme step.link step.change step.hepks) s

theorem TeamReplayState.Valid.replayAll {steps : List TeamStep} (hs : s.Valid)
    (h : teamReplayAll digest scheme s steps = .ok s') : s'.Valid :=
  foldlM_invariant (fun _ _ _ _ hs hstep => hs.replay hstep) hs h

/-! ## What a member loses, and what is replaced -/

/-- A party with the entry could read the keys of the role, and with what is at its place after a
    link it may not any more. -/
def Loses (old : VerifiedTeamMemberState) (after : Option VerifiedTeamMemberState) (role : Role) :
    Prop :=
  role ≤ old.role ∧ match after with
    | none => True
    | some new =>
      old.generation < new.generation ∨ (new.generation = old.generation ∧ new.role < role)

/-- Every current key that a member loses is replaced by one of a larger generation. -/
def ForwardSecret (before after : TeamReplayState) : Prop :=
  ∀ (key : List UInt8) (old : VerifiedTeamMemberState), before.members[key]? = some old →
    ∀ role ∈ before.sharedKeys, Loses old after.members[key]? role →
      generationOf before.sharedKeys role < generationOf after.sharedKeys role

/-- What the schedule of a link must cover besides what it asks for: the keys that a promoted
    member could read with the key it replaces, and no key of the last generation is asked for. -/
structure CoversPromotions (s : TeamReplayState) (change : TeamGroupChange) : Prop where
  promoted : ∀ member ∈ change.changes, ∀ old : VerifiedTeamMemberState,
    s.members[memberKey member]? = some old → old.role < member.role →
    old.generation < newGeneration member → ∀ role ∈ s.sharedKeys, role ≤ old.role →
      ∃ other ∈ change.changes, role ∈ requiredBy s.members s.sharedKeys other
  unsaturated : ∀ member ∈ change.changes, ∀ role ∈ requiredBy s.members s.sharedKeys member,
    role ∈ s.sharedKeys → generationOf s.sharedKeys role ≠ 2 ^ 64 - 1

/-- The schedule asks for exactly what is lost by a member that does not go up. -/
theorem mem_exposedRoles_iff {old : VerifiedTeamMemberState} {parentIndexRange : RationalRange}
    {member : TeamMemberChange} {after : Option VerifiedTeamMemberState}
    (hold : old.role ≠ .none ∧ old.generation ≠ 0)
    (happlied : MemberApplied signer parentIndexRange member (some old) after) :
    role ∈ exposedRoles current old member ↔
      role ∈ current ∧ member.role ≤ old.role ∧ Loses old after role := by
  cases happlied with
  | removed _ hrole hkeys hsigner =>
    have hnew : newGeneration member = 0 := by simp [newGeneration, hkeys]
    have hdown : Role.none < old.role :=
      lt_of_le_of_ne (Role.none_le _) (fun heq => hold.1 heq.symm)
    simp [exposedRoles, Loses, hrole, hnew, hdown, hold.2, Role.none_le,
      ExtTreeMap.mem_keys]
  | changed _ verified hrole hchanged =>
    have hspec := changedMember_eq_ok hchanged
    have hvrole := hspec.role
    have hvgen := hspec.generation
    have hle := hspec.generation_le old rfl
    have hne := hspec.differs old rfl
    simp only [exposedRoles, Loses, ← hvrole, ← hvgen]
    rcases lt_trichotomy verified.role old.role with hdown | hsame | hup
    · by_cases hgen : old.generation = verified.generation
      · simp [hdown, hdown.le, hgen, ExtTreeMap.mem_keys]
      · have hlt : old.generation < verified.generation := UInt64.lt_of_le_of_ne hle hgen
        simp [hdown, hdown.le, hgen, hlt, ExtTreeMap.mem_keys]
    · have hgen : old.generation ≠ verified.generation := fun heq => hne ⟨hsame.symm, heq⟩
      have hlt : old.generation < verified.generation := UInt64.lt_of_le_of_ne hle hgen
      simp [hsame, hgen, hlt, ExtTreeMap.mem_keys]
    · have hnot : ¬ verified.role < old.role := not_lt.mpr hup.le
      simp [hnot, hup.ne, not_le.mpr hup]

theorem generationOf_introduceKeys (hsorted : introduced.Pairwise fun a b => a.role < b.role)
    (hgen : ∀ key ∈ introduced, key.generation = expectedGeneration current key.role)
    (role : Role) :
    generationOf (introduceKeys current introduced) role =
      if role ∈ introduced.map (·.role) then (expectedGeneration current role).toNat
      else generationOf current role := by
  have hkeys : ((introduced.map fun key => (key.role, key)).map Prod.fst) =
      introduced.map (·.role) := by
    rw [List.map_map]
    rfl
  have hnodup : ((introduced.map fun key => (key.role, key)).map Prod.fst).Nodup := by
    rw [hkeys, List.nodup_iff_pairwise_ne, List.pairwise_map]
    exact hsorted.imp fun hlt => hlt.ne
  split
  · rename_i hmem
    obtain ⟨key, hkey, rfl⟩ := List.mem_map.mp hmem
    have hlookup : (introduceKeys current introduced)[key.role]? = some key :=
      (getElem?_insertEach hnodup _ _).mpr (.inl (List.mem_map.mpr ⟨key, hkey, rfl⟩))
    simp [generationOf, hlookup, hgen key hkey]
  · rename_i hmem
    have hlookup : (introduceKeys current introduced)[role]? = current[role]? := by
      refine Option.ext fun key => ?_
      rw [introduceKeys, getElem?_insertEach hnodup, hkeys]
      refine ⟨fun h => ?_, fun h => .inr ⟨hmem, h⟩⟩
      rcases h with h | h
      · refine absurd (List.mem_map_of_mem (f := Prod.fst) h) ?_
        rwa [hkeys]
      · exact h.2
    simp [generationOf, hlookup]

/-- A current key gets a larger generation exactly when a change asks for it and there is one. -/
theorem TeamReplayState.Replayed.generationOf_lt_iff (h : Replayed s change introduced signer s')
    (hrole : role ∈ s.sharedKeys) :
    generationOf s.sharedKeys role < generationOf s'.sharedKeys role ↔
      (∃ member ∈ change.changes, role ∈ requiredBy s.members s.sharedKeys member) ∧
      generationOf s.sharedKeys role ≠ 2 ^ 64 - 1 := by
  obtain ⟨key, hkey⟩ := Option.isSome_iff_exists.mp (ExtTreeMap.isSome_getElem?_iff_mem.mpr hrole)
  have hexpected : (expectedGeneration s.sharedKeys role).toNat =
      min (generationOf s.sharedKeys role + 1) (2 ^ 64 - 1) := by
    simp only [expectedGeneration, generationOf, hkey, saturatingAddU64_one]
  have hbound : generationOf s.sharedKeys role < 2 ^ 64 := by
    simp only [generationOf, hkey]
    exact key.generation.toNat_lt
  rw [h.sharedKeys, generationOf_introduceKeys h.sorted h.generation, hexpected, ← h.required]
  split
  · rename_i hreq
    simp only [hreq, true_and]
    omega
  · rename_i hreq
    simp [hreq]

/-- A role that is there is asked for only because it is exposed. -/
theorem mem_requiredBy_of_mem {member : TeamMemberChange} (hrole : role ∈ current) :
    role ∈ requiredBy members current member ↔
      ∃ old, members[memberKey member]? = some old ∧ role ∈ exposedRoles current old member := by
  have hnew : role ∉ (if member.role ≠ .none ∧ ¬ current.contains member.role = true
      then [member.role] else []) := by
    split
    · rename_i h
      rw [List.mem_singleton]
      rintro rfl
      exact h.2 (ExtTreeMap.contains_iff_mem.mpr hrole)
    · exact List.not_mem_nil
  rw [requiredBy, List.mem_append, or_iff_right hnew]
  cases members[memberKey member]? <;> simp

theorem TeamReplayState.Replayed.forwardSecret_iff (hs : s.Valid)
    (h : Replayed s change introduced signer s') :
    ForwardSecret s s' ↔ CoversPromotions s change := by
  constructor
  · intro hsecret
    refine ⟨fun member hmember old hold hup hgen role hrole hle => ?_,
      fun member hmember role hreq hrole => ?_⟩
    · -- the promoted member replaces its key, so it loses what the old key could read
      have happlied := h.applied member hmember
      rw [hold] at happlied
      have hlost : Loses old s'.members[memberKey member]? role := by
        refine ⟨hle, ?_⟩
        generalize s'.members[memberKey member]? = after at happlied
        cases happlied with
        | removed => trivial
        | changed _ verified _ hchanged =>
          exact .inl ((changedMember_eq_ok hchanged).generation ▸ hgen)
      exact ((h.generationOf_lt_iff hrole).mp (hsecret _ old hold role hrole hlost)).1
    · obtain ⟨old, hold, hexposed⟩ := (mem_requiredBy_of_mem hrole).mp hreq
      have happlied := h.applied member hmember
      rw [hold] at happlied
      obtain ⟨-, -, hlost⟩ :=
        (mem_exposedRoles_iff (hs.member_role _ _ hold) happlied).mp hexposed
      exact ((h.generationOf_lt_iff hrole).mp (hsecret _ old hold role hrole hlost)).2
  · intro hcovers key old hold role hrole hlost
    rw [h.generationOf_lt_iff hrole]
    suffices hreq : ∃ member ∈ change.changes, role ∈ requiredBy s.members s.sharedKeys member by
      obtain ⟨member, hmember, hmem⟩ := hreq
      exact ⟨⟨member, hmember, hmem⟩, hcovers.unsaturated member hmember role hmem hrole⟩
    by_cases hkey : key ∈ change.changes.map memberKey
    · obtain ⟨member, hmember, rfl⟩ := List.mem_map.mp hkey
      have happlied := h.applied member hmember
      rw [hold] at happlied
      by_cases hup : old.role < member.role
      · refine hcovers.promoted member hmember old hold hup ?_ role hrole hlost.1
        generalize s'.members[memberKey member]? = after at happlied hlost
        cases happlied with
        | removed _ hnone =>
          rw [hnone] at hup
          exact absurd hup (not_lt.mpr (Role.none_le _))
        | changed _ verified _ hchanged =>
          have hspec := changedMember_eq_ok hchanged
          rcases hlost.2 with hgen | ⟨-, hlt⟩
          · exact hspec.generation ▸ hgen
          · rw [hspec.role] at hlt
            exact absurd (hlt.trans_le hlost.1) (not_lt.mpr hup.le)
      · refine ⟨member, hmember, (mem_requiredBy_of_mem hrole).mpr ⟨old, hold, ?_⟩⟩
        exact (mem_exposedRoles_iff (hs.member_role _ _ hold) happlied).mpr
          ⟨hrole, not_lt.mp hup, hlost⟩
    · -- an entry that the link does not touch loses nothing
      rw [h.untouched key hkey, hold] at hlost
      rcases hlost.2 with hgen | ⟨-, hlt⟩
      · exact absurd hgen (UInt64.lt_irrefl _)
      · exact absurd hlost.1 (not_le.mpr hlt)

end

/-! ## A promotion that is not forward secret, and a removal that is

A user founds a team and enters a second user as a member. The second user replaces its key and the
founder promotes it with the new one: no key of the team is replaced. Or the founder removes the
second user, and replaces the keys it could read. -/

namespace TeamSample

open LinkSample
open Sample (scheme)

def eldestChange : TeamGroupChange := foundChange canonicalDefaultTeamIndexRange

/-- A link of the founder that changes one member and brings no key. -/
def memberChange (seqno : UInt64) (member : TeamMemberChange) : TeamGroupChange :=
  ⟨⟨seqno, some (key 0), root, 0, key 0⟩, team, host, puk 1, ⟨user 1, .owner⟩, [member], [], []⟩

def eldest : TeamStep := ⟨link eldestChange.value 5, eldestChange, [hepk 3]⟩

def enrol : TeamStep :=
  let change := memberChange 2 (member 2 (.member 0) 1)
  ⟨link change.value 1, change, []⟩

def promote : TeamStep :=
  let change := memberChange 3 (member 2 .admin 2)
  ⟨link change.value 1, change, []⟩

def removal : TeamMemberChange := ⟨.none, user 2, none, .owner, none⟩

def remove : TeamStep :=
  let change := { memberChange 3 removal with
    sharedKeys := [⟨2, .member (-0x4000), ptk 21, fingerprint 3⟩,
      ⟨2, .member 0, ptk 22, fingerprint 3⟩] }
  ⟨link change.value 3, change, [hepk 3]⟩

/-- The place of the second user in the roster. -/
def place : List UInt8 := teamMemberKey (user 2) none .owner

/-- The role and the generation of the second user, and the generations of the members' keys. -/
def seen (s : TeamReplayState) : Option (Role × UInt64) × Nat × Nat :=
  (s.members[place]?.map fun entry => (entry.role, entry.generation),
    generationOf s.sharedKeys (.member (-0x4000)), generationOf s.sharedKeys (.member 0))

/-- The states along the two runs. -/
def run : Except Error (TeamReplayState × TeamReplayState × TeamReplayState × TeamReplayState) := do
  let s₀ ← TeamReplayState.fromEldest digest scheme eldest.link eldest.change eldest.hepks team
  let s₁ ← teamReplayAll digest scheme s₀ [enrol]
  let promoted ← s₁.replay digest scheme promote.link promote.change promote.hepks
  let removed ← s₁.replay digest scheme remove.link remove.change remove.hepks
  .ok (s₀, s₁, promoted, removed)

theorem run_ok : ∃ s₀ s₁ promoted removed,
    TeamReplayState.fromEldest digest scheme eldest.link eldest.change eldest.hepks team = .ok s₀ ∧
    teamReplayAll digest scheme s₀ [enrol] = .ok s₁ ∧
    s₁.replay digest scheme promote.link promote.change promote.hepks = .ok promoted ∧
    s₁.replay digest scheme remove.link remove.change remove.hepks = .ok removed ∧
    seen s₁ = (some (.member 0, 1), 1, 1) ∧ seen promoted = (some (.admin, 2), 1, 1) ∧
    seen removed = (none, 2, 2) ∧
    requiredBy s₁.members s₁.sharedKeys removal = [.member (-0x4000), .member 0] := by
  have hrun : (run.toOption.any fun (_, s₁, promoted, removed) =>
      seen s₁ == (some (.member 0, 1), 1, 1) && seen promoted == (some (.admin, 2), 1, 1) &&
      seen removed == (none, 2, 2) &&
      requiredBy s₁.members s₁.sharedKeys removal == [.member (-0x4000), .member 0]) = true := by
    decide +kernel
  obtain ⟨⟨s₀, s₁, promoted, removed⟩, h, hrun⟩ := exists_of_toOption_any hrun
  simp only [Bool.and_eq_true, beq_iff_eq] at hrun
  obtain ⟨t₀, h₀, h⟩ := bind_eq_ok.mp h
  obtain ⟨t₁, h₁, h⟩ := bind_eq_ok.mp h
  obtain ⟨t₂, h₂, h⟩ := bind_eq_ok.mp h
  obtain ⟨t₃, h₃, h⟩ := bind_eq_ok.mp h
  cases h
  exact ⟨s₀, s₁, promoted, removed, h₀, h₁, h₂, h₃, hrun.1.1.1, hrun.1.1.2, hrun.1.2, hrun.2⟩

end TeamSample

open LinkSample (digest team)
open Sample (scheme)
open TeamSample

/-- The founder promotes a member with a new key, and the members' key stays the one that the old
    key of the member could read. -/
theorem teamReplay_promotion_not_forwardSecret : ∃ s₀ s₁ s₂,
    TeamReplayState.fromEldest digest scheme eldest.link eldest.change eldest.hepks team = .ok s₀ ∧
    teamReplayAll digest scheme s₀ [enrol] = .ok s₁ ∧
    s₁.replay digest scheme promote.link promote.change promote.hepks = .ok s₂ ∧
    ¬ ForwardSecret s₁ s₂ := by
  obtain ⟨s₀, s₁, s₂, -, h₀, h₁, h₂, -, hbefore, hafter, -⟩ := run_ok
  simp only [seen, Prod.mk.injEq, Option.map_eq_some_iff] at hbefore hafter
  obtain ⟨⟨old, hold, hrole, hgen⟩, -, hkey₁⟩ := hbefore
  obtain ⟨⟨new, hnew, -, hnewGen⟩, -, hkey₂⟩ := hafter
  refine ⟨s₀, s₁, s₂, h₀, h₁, h₂, fun hsecret => ?_⟩
  have hlost : Loses old s₂.members[place]? (.member 0) := by
    refine ⟨hrole.ge, ?_⟩
    rw [hnew]
    refine .inl ?_
    rw [hgen, hnewGen]
    decide
  have hmem : Role.member 0 ∈ s₁.sharedKeys := by
    by_contra hmem
    simp [generationOf, hmem] at hkey₁
  have hlt := hsecret _ old hold _ hmem hlost
  rw [hkey₁, hkey₂] at hlt
  exact Nat.lt_irrefl 1 hlt

/-- Forward secrecy of the schedule: a link accepted after an accepted eldest link and accepted
    links replaces every key that a member loses, exactly when the keys are covered that promoted
    members could read with the keys they replace, and no key it replaces is of the last
    generation. -/
theorem teamReplay_forwardSecret_iff {digest : Digest} {scheme : SignatureScheme}
    {team : EntityId} {eldest step : TeamStep} {steps : List TeamStep}
    {s₀ before after : TeamReplayState}
    (heldest : TeamReplayState.fromEldest digest scheme eldest.link eldest.change eldest.hepks
      team = .ok s₀)
    (hsteps : teamReplayAll digest scheme s₀ steps = .ok before)
    (hstep : before.replay digest scheme step.link step.change step.hepks = .ok after) :
    ForwardSecret before after ↔ CoversPromotions before step.change := by
  have hvalid := (TeamReplayState.valid_of_eldest heldest).replayAll hsteps
  obtain ⟨introduced, signer, hreplayed⟩ := TeamReplayState.replay_eq_ok hstep
  exact hreplayed.forwardSecret_iff hvalid

/-- The founder removes the member: its entry is gone, and the two keys it could read are of the
    next generation. -/
theorem teamReplay_forwardSecret_removal : ∃ s₀ s₁ s₂,
    TeamReplayState.fromEldest digest scheme eldest.link eldest.change eldest.hepks team = .ok s₀ ∧
    teamReplayAll digest scheme s₀ [enrol] = .ok s₁ ∧
    s₁.replay digest scheme remove.link remove.change remove.hepks = .ok s₂ ∧
    seen s₁ = (some (.member 0, 1), 1, 1) ∧ seen s₂ = (none, 2, 2) ∧ ForwardSecret s₁ s₂ := by
  obtain ⟨s₀, s₁, -, s₂, h₀, h₁, -, h₂, hbefore, -, hafter, hreq⟩ := run_ok
  refine ⟨s₀, s₁, s₂, h₀, h₁, h₂, hbefore, hafter, ?_⟩
  refine (teamReplay_forwardSecret_iff h₀ h₁ h₂).mpr ⟨?_, ?_⟩
  · refine List.forall_mem_singleton.mpr fun old _ hup => ?_
    exact absurd hup (not_lt.mpr (Role.none_le _))
  · simp only [seen, Prod.mk.injEq] at hbefore
    refine List.forall_mem_singleton.mpr ?_
    rw [hreq]
    simp [hbefore.2]

end Foks.Verify
