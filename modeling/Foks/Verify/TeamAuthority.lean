/-
  Who may change a team, and what they may change.

  The signer of a link is looked up by party and source role, while an entry of the roster stands at
  a place made of party, host and source role. An entry can sign when it is the only one under its
  party and source role, local, and an admin or an owner (`SigningCapable`).

  No link gives or takes a role above the signer's (`teamReplay_no_escalation`). But an admin can
  enter a second entry for the party of an owner, with a host, and then the owner cannot sign any
  more. `teamReplay_signingCapable_iff` says exactly when entries that a link does not touch keep
  signing.
-/
import Foks.Verify.TeamForwardSecrecy

namespace Foks.Verify

open Std (ExtTreeMap)
open Foks.Lib Foks.Crypto Foks.Proto

/-! ## Places -/

theorem role_of_bytes {a b : Role}
    (h : toBE 8 a.protocolValue.toNat ++ signedToBE 2 (a.visibility.getD 0).toInt =
      toBE 8 b.protocolValue.toNat ++ signedToBE 2 (b.visibility.getD 0).toInt) : a = b := by
  obtain ⟨hkind, hvisibility⟩ := List.append_inj h (by simp)
  have hvalue := toBE_inj a.protocolValue.toNat_lt b.protocolValue.toNat_lt hkind
  have hbound (v : Int16) : -(256 ^ 2 : Nat) ≤ 2 * v.toInt ∧ 2 * v.toInt < (256 ^ 2 : Nat) := by
    have hlo := v.le_toInt
    have hhi := v.toInt_lt
    omega
  have hsigned := congrArg signedOfBE hvisibility
  rw [signedOfBE_signedToBE 2 _ (hbound _).1 (hbound _).2,
    signedOfBE_signedToBE 2 _ (hbound _).1 (hbound _).2] at hsigned
  exact Role.rank_injective (congrArg toLex (Prod.ext hvalue hsigned))

/-- Places are collision free: entries with equal keys have the same party, the same host or both
    none, and the same source role. Each identifier begins with a byte that gives its length, and
    the role takes ten bytes, so the key can be read in one way only. -/
theorem teamMemberKey_injective :
    Function.Injective fun place : EntityId × Option EntityId × Role =>
      teamMemberKey place.1 place.2.1 place.2.2 := by
  rintro ⟨party, host, role⟩ ⟨party', host', role'⟩ h
  simp only [teamMemberKey, List.append_assoc] at h
  obtain ⟨rfl, hrest⟩ := EntityId.bytes_append_inj h
  have hlen := congrArg List.length hrest
  simp only [List.length_append, toBE_length, signedToBE_length] at hlen
  cases host with
  | none =>
    cases host' with
    | none => rw [role_of_bytes hrest]
    | some b =>
      have hpos := b.bytes_length_pos
      simp only [Option.elim_none, Option.elim_some, List.length_nil] at hlen
      omega
  | some a =>
    cases host' with
    | none =>
      have hpos := a.bytes_length_pos
      simp only [Option.elim_none, Option.elim_some, List.length_nil] at hlen
      omega
    | some b =>
      obtain ⟨rfl, hrole⟩ := EntityId.bytes_append_inj hrest
      rw [role_of_bytes hrole]

/-! ## Who can sign -/

/-- An entry that can sign: the only one under its party and source role, an admin or an owner,
    and local. -/
structure SigningCapable (members : TeamRoster)
    (key : List UInt8) (member : VerifiedTeamMemberState) : Prop where
  entry : members[key]? = some member
  only : ∀ (key' : List UInt8) (other : VerifiedTeamMemberState), members[key']? = some other →
    other.party = member.party → other.sourceRole = member.sourceRole → key' = key
  role : member.role.kind = .admin ∨ member.role.kind = .owner
  unscoped : member.scopedHost = none

variable {change : TeamGroupChange} {signer : VerifiedTeamMemberState} {hepks : List Hepk}
  {current : SharedKeyMap} {introduced : List VerifiedSharedKey}
  {s s' : TeamReplayState}

/-- The signer of a link is an entry that can sign. -/
theorem transitionSigner_eq_ok {members : TeamRoster} :
    transitionSigner change members = .ok signer ↔
      (∃ key, SigningCapable members key signer) ∧ signer.party = change.signerOwner.party ∧
        signer.sourceRole = change.signerOwner.sourceRole ∧
        signer.verifyKey.bytes.tail = change.signer.bytes.tail := by
  have hsingle (s : VerifiedTeamMemberState) := @filter_sortedValues_eq_singleton _ _ _ _ _ members
    (fun member => member.party = change.signerOwner.party ∧
      member.sourceRole = change.signerOwner.sourceRole) s
  simp only [decide_eq_true_eq] at hsingle
  unfold transitionSigner
  constructor
  · intro h
    split at h
    · rename_i s hfilter
      obtain ⟨hguard, h⟩ := ite_error_eq_ok.mp h
      cases h
      simp only [not_or, not_not, not_and, Option.not_isSome_iff_eq_none] at hguard
      obtain ⟨hkey, hrole, hhost⟩ := hguard
      obtain ⟨key, hentry, ⟨hparty, hsource⟩, honly⟩ := (hsingle signer).mp hfilter
      refine ⟨⟨key, hentry, fun key' other hother hp hs => ?_, ?_, hhost⟩, hparty, hsource, hkey⟩
      · exact honly key' other hother ⟨hp.trans hparty, hs.trans hsource⟩
      · exact or_iff_not_imp_left.mpr fun hne => hrole hne
    · cases h
  · rintro ⟨⟨key, hcapable⟩, hparty, hsource, htail⟩
    have hfilter := (hsingle signer).mpr ⟨key, hcapable.entry, ⟨hparty, hsource⟩,
      fun key' other hother hp => hcapable.only key' other hother (hp.1.trans hparty.symm)
        (hp.2.trans hsource.symm)⟩
    rw [hfilter]
    refine ite_error_eq_ok.mpr ⟨?_, rfl⟩
    simp only [not_or, not_not, not_and, Option.not_isSome_iff_eq_none]
    exact ⟨htail, fun hne => hcapable.role.resolve_left hne, hcapable.unscoped⟩

/-! ## The founding owner -/

theorem teamSharedKeyLoop_roles {digest : Digest} {prior : Option Role} {keys : List UserSharedKey}
    (h : teamSharedKeyLoop digest hepks current prior keys = .ok introduced) :
    introduced.map (·.role) = keys.map (·.role) := by
  induction keys generalizing prior introduced with
  | nil =>
    cases h
    rfl
  | cons key keys ih =>
    obtain ⟨-, h⟩ := ite_error_eq_ok.mp h
    obtain ⟨hepk, -, h⟩ := bind_eq_ok.mp h
    obtain ⟨output, houtput, h⟩ := bind_eq_ok.mp h
    cases h
    rw [List.map_cons, List.map_cons, ih houtput]

/-- A team is founded with a key of every eldest role. -/
theorem validateTeamSharedKeys_eldest {digest : Digest}
    (h : validateTeamSharedKeys digest change hepks current true = .ok introduced) :
    introduced.map (·.role) = eldestRoles := by
  obtain ⟨hroles, h⟩ := ite_error_eq_ok.mp h
  rw [eq_self, true_and, not_not] at hroles
  have hfirst := congrArg (List.map Prod.fst) hroles
  simp only [List.map_map, Function.comp_def, List.map_id'] at hfirst
  rw [teamSharedKeyLoop_roles h, hfirst]

theorem mem_introduceKeys {role : Role} :
    role ∈ introduceKeys current introduced ↔ role ∈ introduced.map (·.role) ∨ role ∈ current := by
  unfold introduceKeys
  induction introduced generalizing current with
  | nil => simp
  | cons key introduced ih =>
    rw [List.map_cons, insertEach_cons, ih, ExtTreeMap.mem_insert, Std.compare_eq_iff_eq,
      List.map_cons, List.mem_cons, eq_comm]
    tauto

/-- The eldest link of a named team founds it with one owner. -/
theorem fromEldest_named {digest : Digest} {scheme : SignatureScheme} {link : UserLink}
    {team : EntityId} (hnamed : team.entityType = entityNamedTeam)
    (h : TeamReplayState.fromEldest digest scheme link change hepks team = .ok s) :
    ∃ member owner, change.changes = [member] ∧ MemberRead member owner ∧ owner.role = .owner ∧
      s.members = (∅ : TeamRoster).insert
        (memberKey member) owner ∧ Role.owner ∈ s.sharedKeys := by
  obtain ⟨introduced, hintroduced, h⟩ := bind_eq_ok.mp h
  obtain ⟨⟨members, floor⟩, heldest, h⟩ := bind_eq_ok.mp h
  obtain ⟨range, -, h⟩ := bind_eq_ok.mp h
  cases h
  obtain ⟨_, -, heldest⟩ := bind_eq_ok.mp heldest
  obtain ⟨hshape, heldest⟩ := ite_error_eq_ok.mp heldest
  obtain ⟨_, -, heldest⟩ := bind_eq_ok.mp heldest
  obtain ⟨_, -, heldest⟩ := bind_eq_ok.mp heldest
  obtain ⟨-, heldest⟩ := ite_error_eq_ok.mp heldest
  obtain ⟨⟨roster, signer⟩, hloop, heldest⟩ := bind_eq_ok.mp heldest
  obtain ⟨found, hfound, heldest⟩ := bind_eq_ok.mp heldest
  obtain ⟨_, -, heldest⟩ := bind_eq_ok.mp heldest
  cases heldest
  simp only [not_or, not_and, not_not, hnamed, beq_self_eq_true, true_imp_iff] at hshape
  obtain ⟨member, hmember⟩ := List.length_eq_one_iff.mp hshape.2.2
  rw [hmember] at hloop
  obtain ⟨-, hloop⟩ := ite_error_eq_ok.mp hloop
  obtain ⟨owner, howner, hloop⟩ := bind_eq_ok.mp hloop
  have hread := verifiedTeamMember_eq_ok howner
  rcases ite_eq_ok hloop with ⟨-, hloop⟩ | ⟨-, hloop⟩
  · obtain ⟨hsigner, hloop⟩ := ite_error_eq_ok.mp hloop
    cases hloop
    rw [not_or, not_not, ← hread.role] at hsigner
    refine ⟨member, owner, hmember, hread, hsigner.1, rfl, mem_introduceKeys.mpr (.inl ?_)⟩
    rw [validateTeamSharedKeys_eldest hintroduced]
    decide
  · cases hloop
    cases hfound

/-- The founding owner can sign exactly when it is local. -/
theorem signingCapable_founder {member : TeamMemberChange} {owner : VerifiedTeamMemberState}
    (hread : MemberRead member owner) (howner : owner.role = .owner) :
    SigningCapable ((∅ : TeamRoster).insert
      (memberKey member) owner) (memberKey member) owner ↔ member.scopedHost = none := by
  rw [← hread.scopedHost]
  refine ⟨fun h => h.unscoped, fun hlocal => ⟨ExtTreeMap.getElem?_insert_self, ?_, ?_, hlocal⟩⟩
  · intro key' other hother _ _
    rw [getElem?_insert_self_or] at hother
    split at hother
    · exact Eq.symm ‹_›
    · simp at hother
  · rw [howner]
    exact .inr rfl

/-! ## Every member has a key -/

/-- Every member's role has a current key. -/
def TeamReplayState.Covered (s : TeamReplayState) : Prop :=
  ∀ (key : List UInt8) (member : VerifiedTeamMemberState), s.members[key]? = some member →
    member.role ∈ s.sharedKeys

namespace TeamReplayState

theorem covered_of_eldest {digest : Digest} {scheme : SignatureScheme} {link : UserLink}
    {team : EntityId} (hnamed : team.entityType = entityNamedTeam)
    (h : fromEldest digest scheme link change hepks team = .ok s) : s.Covered := by
  obtain ⟨member, owner, -, -, howner, hmembers, hkey⟩ := fromEldest_named hnamed h
  intro key entry hentry
  rw [hmembers, getElem?_insert_self_or] at hentry
  split at hentry
  · cases hentry
    rwa [howner]
  · simp at hentry

/-- A new role gets a key with the link that gives it, and no key goes away. -/
theorem Covered.replayed (hs : s.Covered) (h : Replayed s change introduced signer s') :
    s'.Covered := by
  intro key entry hentry
  rw [h.sharedKeys, mem_introduceKeys]
  rcases h.member_cases hentry with hold | ⟨member, hmember, rfl, hchanged⟩
  · exact .inr (hs key entry hold)
  · have hspec := changedMember_eq_ok hchanged
    by_cases hcurrent : member.role ∈ s.sharedKeys
    · rw [hspec.role]
      exact .inr hcurrent
    · refine .inl ((h.required _).mpr ⟨member, hmember, List.mem_append_left _ ?_⟩)
      rw [← hspec.role] at hcurrent ⊢
      rw [if_pos ⟨hspec.role_ne, by rwa [ExtTreeMap.contains_iff_mem]⟩]
      exact List.mem_singleton_self _

theorem Covered.replay {digest : Digest} {scheme : SignatureScheme} {link : UserLink}
    (hs : s.Covered) (h : s.replay digest scheme link change hepks = .ok s') : s'.Covered := by
  obtain ⟨introduced, signer, hreplayed⟩ := replay_eq_ok h
  exact hs.replayed hreplayed

end TeamReplayState

/-! ## No link goes above its signer -/

/-- What a link may do to a roster. -/
structure WithinAuthority (s : TeamReplayState) (change : TeamGroupChange)
    (s' : TeamReplayState) : Prop where
  /-- The signer can sign, its key is the one of the link, and no member that is entered, changed or
      removed is above it. -/
  signer : ∃ key signer, SigningCapable s.members key signer ∧
    signer.party = change.signerOwner.party ∧ signer.sourceRole = change.signerOwner.sourceRole ∧
    signer.verifyKey.bytes.tail = change.signer.bytes.tail ∧ ∀ member ∈ change.changes,
      (∀ old, s.members[memberKey member]? = some old → old.role ≤ signer.role) ∧
      (∀ new, s'.members[memberKey member]? = some new → new.role ≤ signer.role)
  untouched : ∀ key, key ∉ change.changes.map memberKey → s'.members[key]? = s.members[key]?
  /-- A member that stays keeps its removal key and does not go back to an older key. -/
  survives : ∀ (key : List UInt8) (old new : VerifiedTeamMemberState),
    s.members[key]? = some old → s'.members[key]? = some new →
      old.generation ≤ new.generation ∧ new.removalKeyCommitment = old.removalKeyCommitment
  owner : ∃ (key : List UInt8) (member : VerifiedTeamMemberState),
    s'.members[key]? = some member ∧ member.role = .owner
  covered : s'.Covered

theorem Role.eq_owner_of_kind {role : Role} (h : role.kind = .owner) : role = .owner := by
  cases role <;> simp_all [Role.kind]

theorem TeamReplayState.Replayed.withinAuthority (hs : s.Covered)
    (h : Replayed s change introduced signer s') : WithinAuthority s change s' := by
  obtain ⟨⟨place, hcapable⟩, hparty, hsource, hkey⟩ := transitionSigner_eq_ok.mp h.signer_eq
  refine ⟨⟨place, signer, hcapable, hparty, hsource, hkey, fun member hmember => ?_⟩, h.untouched,
    ?_, ?_, hs.replayed h⟩
  · have happlied := h.applied member hmember
    generalize s.members[memberKey member]? = prior at happlied ⊢
    generalize s'.members[memberKey member]? = after at happlied ⊢
    cases happlied with
    | removed old _ _ hbelow =>
      refine ⟨?_, fun _ hnew => absurd hnew.symm (Option.some_ne_none _)⟩
      rintro _ ⟨⟩
      exact hbelow
    | changed prior verified _ hchanged =>
      have hspec := changedMember_eq_ok hchanged
      refine ⟨hspec.below_old, ?_⟩
      rintro _ ⟨⟩
      exact hspec.below
  · intro key old new hold hnew
    rcases h.member_cases hnew with hsame | ⟨member, -, rfl, hchanged⟩
    · obtain rfl : old = new := Option.some.inj (hold.symm.trans hsame)
      exact ⟨UInt64.le_refl _, rfl⟩
    · have hspec := changedMember_eq_ok hchanged
      exact ⟨hspec.generation_le old hold, hspec.removal old hold⟩
  · obtain ⟨member, hmember, hkind⟩ := h.owner
    obtain ⟨key, hkey⟩ := mem_sortedValues.mp hmember
    exact ⟨key, member, hkey, Role.eq_owner_of_kind hkind⟩

/-- No link of a named team goes above its signer: the key of the link has signed it; its owner is
    the only entry under its party and source role, local, an admin or an owner; it enters, changes
    and removes only members up to its own role; entries that the link does not name stay; and an
    owner and a key for every member's role remain. -/
theorem teamReplay_no_escalation {digest : Digest} {scheme : SignatureScheme} {team : EntityId}
    {eldest step : TeamStep} {steps : List TeamStep} {s₀ before after : TeamReplayState}
    (hnamed : team.entityType = entityNamedTeam)
    (heldest : TeamReplayState.fromEldest digest scheme eldest.link eldest.change eldest.hepks
      team = .ok s₀)
    (hsteps : teamReplayAll digest scheme s₀ steps = .ok before)
    (hstep : before.replay digest scheme step.link step.change step.hepks = .ok after) :
    SignedBy digest scheme step.link step.change.signer ∧
      WithinAuthority before step.change after := by
  have hcovered : before.Covered := foldlM_invariant (P := TeamReplayState.Covered)
    (fun _ _ _ _ hs h => hs.replay h) (TeamReplayState.covered_of_eldest hnamed heldest) hsteps
  obtain ⟨introduced, signer, hreplayed⟩ := TeamReplayState.replay_eq_ok hstep
  exact ⟨TeamReplayState.replay_signedBy hstep, hreplayed.withinAuthority hcovered⟩

/-! ## Who can still sign after a link -/

/-- No change of the link enters the party and source role of an entry that can sign, and that the
    link leaves alone, a second time. -/
def EntersNoSecond (s : TeamReplayState) (change : TeamGroupChange) : Prop :=
  ∀ (key : List UInt8) (member : VerifiedTeamMemberState), SigningCapable s.members key member →
    key ∉ change.changes.map memberKey → ∀ entered ∈ change.changes, entered.role ≠ .none →
      ¬ (entered.party = member.party ∧ entered.sourceRole = member.sourceRole)

/-- Every entry that can sign, and that the link leaves alone, can sign after the link. -/
def KeepsSigners (s : TeamReplayState) (change : TeamGroupChange) (s' : TeamReplayState) : Prop :=
  ∀ (key : List UInt8) (member : VerifiedTeamMemberState), SigningCapable s.members key member →
    key ∉ change.changes.map memberKey → SigningCapable s'.members key member

theorem TeamReplayState.Replayed.keepsSigners_iff (h : Replayed s change introduced signer s') :
    KeepsSigners s change s' ↔ EntersNoSecond s change := by
  constructor
  · intro hkeeps key member hcapable hkey entered hentered hrole hsame
    have hafter := hkeeps key member hcapable hkey
    have happlied := h.applied entered hentered
    generalize hprior : s.members[memberKey entered]? = prior at happlied
    generalize hnext : s'.members[memberKey entered]? = next at happlied
    cases happlied with
    | removed _ hnone => exact hrole hnone
    | changed _ verified _ hchanged =>
      -- the entry that was put in place stands beside the one that could sign
      have hspec := changedMember_eq_ok hchanged
      have hplace := hafter.only _ verified hnext (hspec.party.trans hsame.1)
        (hspec.sourceRole.trans hsame.2)
      exact hkey (hplace ▸ List.mem_map_of_mem hentered)
  · intro hnone key member hcapable hkey
    refine ⟨(h.untouched key hkey).trans hcapable.entry, ?_, hcapable.role, hcapable.unscoped⟩
    intro key' other hother hparty hsource
    rcases h.member_cases hother with hold | ⟨entered, hentered, rfl, hchanged⟩
    · exact hcapable.only key' other hold hparty hsource
    · have hspec := changedMember_eq_ok hchanged
      exact absurd ⟨hspec.party.symm.trans hparty, hspec.sourceRole.symm.trans hsource⟩
        (hnone key member hcapable hkey entered hentered (hspec.role ▸ hspec.role_ne))

/-! ## An owner that is locked out

A user founds a team and enters a second user as an admin. The admin enters the founder once more,
as a member from another host. -/

namespace TeamSample

open LinkSample
open Sample (scheme)

def enrolAdmin : TeamStep :=
  let change := memberChange 2 (member 2 .admin 1)
  ⟨link change.value 1, change, []⟩

/-- The founder, as seen from another host. -/
def double : TeamMemberChange :=
  ⟨.member 0, user 1, some (entity entityHost 8), .owner,
    some ⟨puk 1, fingerprint 1, 1, some (key 0), none⟩⟩

def shadow : TeamStep :=
  let change := { memberChange 3 double with signer := puk 2, signerOwner := ⟨user 2, .owner⟩ }
  ⟨link change.value 1, change, []⟩

def shadowRun : Except Error (TeamReplayState × TeamReplayState × TeamReplayState) := do
  let s₀ ← TeamReplayState.fromEldest digest scheme eldest.link eldest.change eldest.hepks team
  let s₁ ← s₀.replay digest scheme enrolAdmin.link enrolAdmin.change enrolAdmin.hepks
  let s₂ ← s₁.replay digest scheme shadow.link shadow.change shadow.hepks
  .ok (s₀, s₁, s₂)

/-- The founder can sign before the link of the admin, and after it there are two of it. -/
theorem shadowRun_ok : ∃ s₀ s₁ s₂ owner,
    TeamReplayState.fromEldest digest scheme eldest.link eldest.change eldest.hepks team = .ok s₀ ∧
    s₀.replay digest scheme enrolAdmin.link enrolAdmin.change enrolAdmin.hepks = .ok s₁ ∧
    s₁.replay digest scheme shadow.link shadow.change shadow.hepks = .ok s₂ ∧
    transitionSigner enrolAdmin.change s₁.members = .ok owner ∧
    s₁.members[teamMemberKey (user 1) none .owner]? = some owner ∧ owner.role = .owner ∧
    s₂.members[memberKey double]?.map (fun entry => (entry.party, entry.sourceRole)) =
      some (owner.party, owner.sourceRole) := by
  have hrun : (shadowRun.toOption.any fun (_, s₁, s₂) =>
      (transitionSigner enrolAdmin.change s₁.members).toOption.any fun owner =>
        s₁.members[teamMemberKey (user 1) none .owner]? == some owner && owner.role == .owner &&
        s₂.members[memberKey double]?.map (fun entry => (entry.party, entry.sourceRole)) ==
          some (owner.party, owner.sourceRole)) = true := by decide +kernel
  obtain ⟨⟨s₀, s₁, s₂⟩, h, hrun⟩ := exists_of_toOption_any hrun
  obtain ⟨owner, howner, hrun⟩ := exists_of_toOption_any hrun
  simp only [Bool.and_eq_true, beq_iff_eq] at hrun
  obtain ⟨t₀, h₀, h⟩ := bind_eq_ok.mp h
  obtain ⟨t₁, h₁, h⟩ := bind_eq_ok.mp h
  obtain ⟨t₂, h₂, h⟩ := bind_eq_ok.mp h
  cases h
  exact ⟨s₀, s₁, s₂, owner, h₀, h₁, h₂, howner, hrun.1.1, hrun.1.2, hrun.2⟩

end TeamSample

open LinkSample (digest user team member)
open Sample (scheme)
open TeamSample

/-- An admin locks the founding owner out: the owner can sign before the link, the link does not
    name its place, and after the link it cannot sign. -/
theorem teamReplay_owner_locked_out : ∃ s₀ s₁ s₂ key owner,
    TeamReplayState.fromEldest digest scheme eldest.link eldest.change eldest.hepks team = .ok s₀ ∧
    s₀.replay digest scheme enrolAdmin.link enrolAdmin.change enrolAdmin.hepks = .ok s₁ ∧
    s₁.replay digest scheme shadow.link shadow.change shadow.hepks = .ok s₂ ∧
    SigningCapable s₁.members key owner ∧ owner.role = .owner ∧
    key ∉ shadow.change.changes.map memberKey ∧
    ¬ SigningCapable s₂.members key owner := by
  obtain ⟨s₀, s₁, s₂, owner, h₀, h₁, h₂, hsigner, hentry, hrole, hdouble⟩ := shadowRun_ok
  obtain ⟨⟨key, hcapable⟩, -⟩ := transitionSigner_eq_ok.mp hsigner
  obtain rfl := hcapable.only _ owner hentry rfl rfl
  have hplace : teamMemberKey (user 1) none .owner ≠ memberKey double := by
    decide +kernel
  refine ⟨s₀, s₁, s₂, _, owner, h₀, h₁, h₂, hcapable, hrole, ?_, fun hafter => ?_⟩
  · have hchanges : shadow.change.changes = [double] := rfl
    rw [hchanges, List.map_singleton, List.mem_singleton]
    exact hplace
  · obtain ⟨other, hother, hsame⟩ := Option.map_eq_some_iff.mp hdouble
    rw [Prod.mk.injEq] at hsame
    exact hplace (hafter.only _ other hother hsame.1 hsame.2).symm

/-- Who can sign in a named team: its founder exactly when it is local, and after a link every
    entry that could sign and is not named by it, exactly when the link enters none of them a
    second time. -/
theorem teamReplay_signingCapable_iff {digest : Digest} {scheme : SignatureScheme}
    {team : EntityId} {eldest : TeamStep} {s₀ : TeamReplayState}
    (hnamed : team.entityType = entityNamedTeam)
    (heldest : TeamReplayState.fromEldest digest scheme eldest.link eldest.change eldest.hepks
      team = .ok s₀) :
    (∃ member owner, eldest.change.changes = [member] ∧
      s₀.members[memberKey member]? = some owner ∧ owner.role = .owner ∧
      (SigningCapable s₀.members (memberKey member) owner ↔ member.scopedHost = none)) ∧
    ∀ (steps : List TeamStep) (step : TeamStep) (before after : TeamReplayState),
      teamReplayAll digest scheme s₀ steps = .ok before →
      before.replay digest scheme step.link step.change step.hepks = .ok after →
      (KeepsSigners before step.change after ↔ EntersNoSecond before step.change) := by
  obtain ⟨member, owner, hchanges, hread, howner, hmembers, -⟩ := fromEldest_named hnamed heldest
  refine ⟨⟨member, owner, hchanges, ?_, howner, ?_⟩, fun steps step before after _ hstep => ?_⟩
  · rw [hmembers, ExtTreeMap.getElem?_insert_self]
  · rw [hmembers]
    exact signingCapable_founder hread howner
  · obtain ⟨introduced, signer, hreplayed⟩ := TeamReplayState.replay_eq_ok hstep
    exact hreplayed.keepsSigners_iff

/-- The founder of the sample can sign, and still can after it entered the admin. -/
theorem teamReplay_signingCapable_enrolAdmin : ∃ s₀ s₁ key owner,
    TeamReplayState.fromEldest digest scheme eldest.link eldest.change eldest.hepks team = .ok s₀ ∧
    s₀.replay digest scheme enrolAdmin.link enrolAdmin.change enrolAdmin.hepks = .ok s₁ ∧
    SigningCapable s₀.members key owner ∧
    KeepsSigners s₀ enrolAdmin.change s₁ := by
  obtain ⟨s₀, s₁, s₂, -, h₀, h₁, -⟩ := shadowRun_ok
  obtain ⟨⟨enrolled, owner, hchanges, hentry, -, hfounder⟩, hlinks⟩ :=
    teamReplay_signingCapable_iff (by decide) h₀
  obtain rfl : member 1 .owner 1 = enrolled := List.singleton_inj.mp hchanges
  refine ⟨s₀, s₁, _, owner, h₀, h₁, hfounder.mpr rfl,
    (hlinks [] enrolAdmin s₀ s₁ rfl h₁).mpr ?_⟩
  intro key other hother _ entered hentered _ hsame
  -- the founder is the only member, and the link enters another user
  obtain ⟨founder, first, hfounding, hread, -, hmembers, -⟩ := fromEldest_named (by decide) h₀
  obtain rfl : member 1 .owner 1 = founder := List.singleton_inj.mp hfounding
  have hfirst := hother.entry
  rw [hmembers, getElem?_insert_self_or] at hfirst
  split at hfirst
  · cases hfirst
    obtain rfl : entered = member 2 .admin 1 := List.mem_singleton.mp hentered
    exact absurd (hsame.1.trans hread.party) (by decide)
  · simp at hfirst

theorem teamReplay_no_escalation_enrolAdmin : ∃ s₀ s₁,
    TeamReplayState.fromEldest digest scheme eldest.link eldest.change eldest.hepks team = .ok s₀ ∧
    s₀.replay digest scheme enrolAdmin.link enrolAdmin.change enrolAdmin.hepks = .ok s₁ ∧
    SignedBy digest scheme enrolAdmin.link enrolAdmin.change.signer ∧
    WithinAuthority s₀ enrolAdmin.change s₁ := by
  obtain ⟨s₀, s₁, s₂, -, h₀, h₁, -⟩ := shadowRun_ok
  have hnone : teamReplayAll digest scheme s₀ [] = .ok s₀ := rfl
  exact ⟨s₀, s₁, h₀, h₁, teamReplay_no_escalation (by decide) h₀ hnone h₁⟩

end Foks.Verify
