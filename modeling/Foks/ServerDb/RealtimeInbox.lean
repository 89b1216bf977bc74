/-
  The inboxes of the chat store.

  A row of an inbox changes only together with the version of the inbox, so versions tell the
  changes of a user apart (`Versions`). `Exact` is the invariant of reconciliation: for an inbox
  that is not dirty, the rows of all channels up to its cursor are accessible exactly when the user
  may read the channel. A page moves the cursor over channels that it has made exact, the triggers
  take the cursor away when a membership changes, and fanout keeps the channels exact that the
  cursor has passed.
-/
import Foks.Lib.Paging
import Foks.ServerDb.RealtimeLog

namespace Foks.ServerDb

open Foks.Lib Foks.Proto Relation

variable {db mid : RtDatabase} {row : RtMemberRow} {α : Type} {page : List RtChannelRow}

namespace RtDatabase

/-! ## Versions -/

structure Versions (db : RtDatabase) : Prop where
  keyed : Keyed RtUserChannelRow.place db.userChannels
  le_head : ∀ uid id row, db.userChannel? uid id = some row →
    row.inboxVersion.toNat ≤ (db.inboxHead uid).toNat
  distinct : ∀ uid a b rowA rowB, db.userChannel? uid a = some rowA →
    db.userChannel? uid b = some rowB → rowA.inboxVersion = rowB.inboxVersion → a = b

section

variable {allowed : RtDatabase → RtUserChannelRow → Prop} {db db' : RtDatabase}

theorem RowWritten.versions {row : RtUserChannelRow} (h : RowWritten db db' row)
    (hversions : Versions db) : Versions db' := by
  have hhead : (db'.inboxHead row.uid).toNat = (db.inboxHead row.uid).toNat + 1 := by
    rw [h.head, if_pos rfl, h.version]
  -- the new row has a version above every other row of its user
  have habove (id : RtChannelId) (other : RtUserChannelRow)
      (hother : db.userChannel? row.uid id = some other) :
      other.inboxVersion ≠ row.inboxVersion := by
    intro heq
    have hle := hversions.le_head _ _ _ hother
    have hversion := h.version
    rw [heq] at hle
    omega
  refine ⟨?_, ?_, ?_⟩
  · rw [h.rows]
    exact hversions.keyed.upsertRow
  · intro uid id other hother
    rw [h.userChannel] at hother
    split at hother
    · rename_i hplace
      cases hother
      obtain ⟨rfl, _⟩ := Prod.mk.inj hplace
      rw [hhead, h.version]
    · exact (hversions.le_head uid id other hother).trans (h.head_le uid)
  · intro uid a b rowA rowB hA hB heq
    rw [h.userChannel] at hA hB
    split at hA
    · rename_i hplaceA
      cases hA
      obtain ⟨rfl, rfl⟩ := Prod.mk.inj hplaceA
      split at hB
      · rename_i hplaceB
        exact (Prod.mk.inj hplaceB).2
      · exact absurd heq.symm (habove b rowB hB)
    · split at hB
      · rename_i hplaceB
        cases hB
        obtain ⟨rfl, rfl⟩ := Prod.mk.inj hplaceB
        exact absurd heq (habove a rowA hA)
      · exact hversions.distinct uid a b rowA rowB hA hB heq

theorem Writes.versions (h : Writes allowed db db') (hversions : Versions db) : Versions db' :=
  h.invariant (fun _ _ _ _ hwritten => hwritten.versions) hversions

theorem Writes.users (h : Writes allowed db db')
    (hallowed : ∀ a row, allowed a row → row.uid.head? = some entityUser)
    (husers : ∀ uid row, db.inbox? uid = some row → uid.head? = some entityUser) :
    ∀ uid row, db'.inbox? uid = some row → uid.head? = some entityUser := by
  refine h.invariant (P := fun b => ∀ uid row, b.inbox? uid = some row →
    uid.head? = some entityUser) ?_ husers
  intro a b row hrow hwritten ha uid inbox hinbox
  rw [hwritten.inbox] at hinbox
  split at hinbox
  · rename_i huid
    rw [huid]
    exact hallowed a row hrow
  · exact ha uid inbox hinbox

end

/-! ## Readers and recipients -/

/-- A user of the host has at most one entry, as an owner of themselves, in the roster of a team. -/
def SingleEntry (db : RtDatabase) : Prop :=
  ∀ a ∈ db.teamMembers, ∀ b ∈ db.teamMembers, a.isLocal db.host = true → b.isLocal db.host = true →
    a.teamId = b.teamId → a.partyId = b.partyId → a = b

theorem membershipRole_of_mem (hsingle : SingleEntry db) (hrow : row ∈ db.teamMembers)
    (hlocal : row.isLocal db.host = true) (hteam : db.isChatTeam row.teamId = true) :
    db.membershipRole row.partyId row.teamId =
      (storedRole row.roleType row.visibility).map some := by
  unfold membershipRole
  cases hfound : db.memberRow? row.partyId row.teamId with
  | none =>
    have hnone := List.find?_eq_none.mp hfound row hrow
    simp [hlocal, hteam] at hnone
  | some other =>
    have hmatch := List.find?_some hfound
    simp only [Bool.and_eq_true, decide_eq_true_eq] at hmatch
    obtain ⟨⟨⟨hotherTeam, _⟩, hotherParty⟩, hotherLocal⟩ := hmatch
    rw [hsingle other (List.mem_of_find?_eq_some hfound) row hrow hotherLocal hlocal hotherTeam
      hotherParty]

theorem mem_fanoutRows {md : RtChannelMetadata} (h : row ∈ db.fanoutRows md) :
    row ∈ db.teamMembers ∧ row.teamId = md.team.entity.bytes ∧
      row.isLocal db.host = true := by
  have hfilter := (List.mem_insertionSort _).mp (List.mem_of_mem_take h)
  simpa using hfilter

variable {channel : RtChannelRow} {uids : List (List UInt8)} {uid : List UInt8} {db' : RtDatabase}

/-- The recipients of a stamp are the users that may read the channel. -/
theorem mem_recipients (hsingle : SingleEntry db) {md : RtChannelMetadata}
    (h : db.recipients md = .ok uids) (hteam : md.team.entity.bytes = channel.team)
    (hpolicy : ChannelPolicy.new md = ChannelPolicy.new channel.metadata)
    (hchat : db.isChatTeam channel.team = true) :
    uid ∈ uids ↔ uid.head? = some entityUser ∧ db.Readable uid channel := by
  obtain ⟨policy, hnew, h⟩ := bind_eq_ok.mp h
  obtain ⟨found, hfound, h⟩ := bind_eq_ok.mp h
  obtain ⟨hfew, h⟩ := ite_error_eq_ok.mp h
  cases h
  rw [hpolicy] at hnew
  have hall : (db.fanoutRows md).take fanoutMembers = db.fanoutRows md :=
    List.take_of_length_le (Nat.le_of_not_lt hfew)
  rw [hall] at hfound
  have hpairs := (mapM_eq_ok_iff).mp hfound
  rw [List.reduceOption_mem_iff]
  constructor
  · intro huid
    obtain ⟨row, hrow, hrecipient⟩ := exists_of_mem_forall₂ hpairs huid
    obtain ⟨hmem, hrowTeam, hlocal⟩ := mem_fanoutRows hrow
    obtain ⟨role, hrole, hcase⟩ := map_eq_ok.mp hrecipient
    split at hcase
    · rename_i hcondition
      cases hcase
      simp only [Bool.and_eq_true, decide_eq_true_eq] at hcondition
      refine ⟨hcondition.1, role, policy, ?_, hnew, hcondition.2⟩
      rw [← hteam, ← hrowTeam]
      rw [membershipRole_of_mem hsingle hmem hlocal (by rw [hrowTeam, hteam]; exact hchat), hrole]
      rfl
    · cases hcase
  · rintro ⟨huser, role, policy', hrole, hnew', hread⟩
    obtain rfl : policy' = policy := Except.ok.inj (hnew'.symm.trans hnew)
    obtain ⟨row, hmem, hrowTeam, _, hparty, hlocal, hstored⟩ := membershipRole_eq_some hrole
    have hrow : row ∈ db.fanoutRows md := by
      unfold fanoutRows at hfew ⊢
      rw [List.length_take] at hfew
      rw [List.take_of_length_le (by omega)]
      refine (List.mem_insertionSort _).mpr (List.mem_filter.mpr ⟨hmem, ?_⟩)
      simp [hrowTeam, hteam, hlocal]
    obtain ⟨result, hresult, hrecipient⟩ := exists_of_mem_forall₂ hpairs.flip hrow
    unfold recipient at hrecipient
    rw [hstored] at hrecipient
    have hvalue : result = some uid := by
      rw [← Except.ok.inj hrecipient]
      simp [hparty, huser, hread]
    rw [← hvalue]
    exact hresult

/-! ## Exact rows -/

/-- The walk of the inbox has passed the channel since it was marked dirty. -/
def Passed (inbox : RtInboxRow) (id : RtChannelId) : Prop :=
  inbox.reconcileDirty = false ∧
    ∀ cursor, inbox.reconcileAfter = some cursor → channelOrder id ≤ channelOrder cursor

/-- The rows of a user are accessible exactly when they may read the channel, as far as the walk of
    their inbox has come. -/
structure Exact (db : RtDatabase) : Prop where
  users : ∀ uid inbox, db.inbox? uid = some inbox → uid.head? = some entityUser
  exact : ∀ uid inbox, db.inbox? uid = some inbox → ∀ channel ∈ db.channels,
    Passed inbox channel.id → (db.accessible uid channel.id = true ↔ db.Readable uid channel)

/-- What a run of writes keeps exact: the inboxes are those from before, so it is enough to compare
    the rows. -/
theorem Writes.exact {allowed : RtDatabase → RtUserChannelRow → Prop} (h : Writes allowed db db')
    (hallowed : ∀ a row, allowed a row → row.uid.head? = some entityUser)
    (husers : ∀ uid inbox, db.inbox? uid = some inbox → uid.head? = some entityUser)
    (hexact : ∀ uid inbox, db.inbox? uid = some inbox → ∀ channel ∈ db.channels,
      Passed inbox channel.id → (db'.accessible uid channel.id = true ↔ db.Readable uid channel)) :
    Exact db' := by
  refine ⟨h.users hallowed husers, fun uid inbox hinbox channel hchannel hpassed => ?_⟩
  obtain ⟨before, hbefore, hclean, hafter⟩ := h.walk hinbox hpassed.1
  rw [h.sameChat.symm_fields.1] at hchannel
  rw [h.sameChat.readable]
  exact hexact uid before hbefore channel hchannel ⟨hclean, by rw [hafter]; exact hpassed.2⟩

theorem accessible_of_eq (h : db'.userChannels = db.userChannels) (uid : List UInt8)
    (id : RtChannelId) : db'.accessible uid id = db.accessible uid id := by
  unfold accessible userChannel?
  rw [h]

theorem inbox?_of_eq (h : db'.inboxes = db.inboxes) (uid : List UInt8) :
    db'.inbox? uid = db.inbox? uid := by
  unfold inbox?
  rw [h]

theorem ChannelCreated.exact (h : ChannelCreated db mid db' channel uids) (hlog : Log db)
    (hsingle : SingleEntry db) (hexact : Exact db) : Exact db' := by
  obtain ⟨sets, rfl⟩ : ∃ sets, mid = { db with
      channelSets := sets, channels := db.channels ++ [channel] } := ⟨_, h.inserted⟩
  have hrecipients {uid : List UInt8} : uid ∈ uids ↔
      uid.head? = some entityUser ∧ db.Readable uid channel :=
    mem_recipients hsingle h.recipients rfl rfl h.team
  refine h.writes.exact (fun a row hrow => (hrecipients.mp hrow.place.1).1) hexact.users ?_
  intro uid inbox hinbox other hother hpassed
  rw [h.accessible, Bool.or_eq_true, decide_eq_true_eq, hrecipients]
  show (db.accessible uid other.id = true ∨ _) ↔ db.Readable uid other
  rcases List.mem_append.mp hother with hother | hother
  · -- an older channel has another identifier
    have hne : other.id ≠ channel.id := (h.fresh other hother).1
    rw [hexact.exact uid inbox hinbox other hother hpassed]
    simp [hne]
  · rw [List.mem_singleton.mp hother]
    have hnone : db.accessible uid channel.id = false := by
      unfold RtDatabase.accessible
      cases hrow : db.userChannel? uid channel.id with
      | none => rfl
      | some row =>
        obtain ⟨known, hknown, hid⟩ := hlog.known row (List.mem_of_find?_eq_some hrow)
        have hplace := (Prod.mk.inj (userChannel?_place hrow)).2
        exact absurd (hid.trans hplace) (h.fresh known hknown).1
    simp [hnone, hexact.users uid inbox hinbox]

theorem MessageAppended.exact {row : RtMessageRow} (h : MessageAppended db mid db' channel row uids)
    (hlog : Log db) (hsingle : SingleEntry db) (hexact : Exact db) : Exact db' := by
  obtain rfl := h.inserted
  have hrecipients {uid : List UInt8} : uid ∈ uids ↔
      uid.head? = some entityUser ∧ db.Readable uid channel :=
    mem_recipients hsingle h.recipients (project_team channel) (new_project channel) h.team
  refine h.writes.exact (fun a row hrow => (hrecipients.mp hrow.place.1).1) hexact.users ?_
  intro uid inbox hinbox last hlast hpassed
  obtain ⟨other, hother, rfl⟩ := List.mem_map.mp hlast
  have hsame : db.Readable uid (withLast row other) ↔ db.Readable uid other := by
    unfold Readable RtChannelRow.team
    rw [(withLast_metadata row other).1]
  rw [withLast_id] at hpassed ⊢
  rw [h.accessible, Bool.or_eq_true, decide_eq_true_eq, hrecipients]
  show (db.accessible uid other.id = true ∨ _) ↔ db.Readable uid (withLast row other)
  rw [hsame, hexact.exact uid inbox hinbox other hother hpassed]
  constructor
  · rintro (hread | ⟨⟨_, hread⟩, hid⟩)
    · exact hread
    · rwa [hlog.channelIds.eq hother h.known hid]
  · exact .inl

theorem ReadMoved.exact {read : RtReadThrough} (h : ReadMoved db db' uid read) (hlog : Log db)
    (hexact : Exact db) : Exact db' := by
  refine h.writes.exact (fun a row hrow => by rw [hrow.place.1]; exact h.isUser) hexact.users ?_
  intro other inbox hinbox channel hchannel hpassed
  rw [h.accessible, Bool.or_eq_true, decide_eq_true_eq,
    hexact.exact other inbox hinbox channel hchannel hpassed]
  constructor
  · rintro (hread | ⟨rfl, hid⟩)
    · exact hread
    · obtain ⟨found, hfound, hread⟩ := h.readable
      have hfoundId : found.id = read.channel := by simpa using List.find?_some hfound
      rwa [hlog.channelIds.eq hchannel (List.mem_of_find?_eq_some hfound)
        (hid.trans hfoundId.symm)]
  · exact .inl

/-! ## Pages of a walk -/

theorem channelOrder_inj {a b : RtChannelId} (h : channelOrder a = channelOrder b) : a = b := by
  refine FixedBytes.ext ?_
  rw [← toBE_ofBE a.bytes, ← toBE_ofBE b.bytes, a.size_eq, b.size_eq]
  exact congrArg (toBE 16) h

theorem Readable.isCandidate (h : db.Readable uid channel) : db.isCandidate uid channel = true := by
  obtain ⟨role, _, hrole, _, _⟩ := h
  obtain ⟨row, hrow, hteam, _, hparty, _, _⟩ := membershipRole_eq_some hrole
  unfold RtDatabase.isCandidate
  rw [Bool.or_eq_true]
  exact .inl (List.any_eq_true.mpr ⟨row, hrow, by simp [hparty, hteam]⟩)

theorem isCandidate_of_accessible (h : db.accessible uid channel.id = true) :
    db.isCandidate uid channel = true := by
  obtain ⟨row, hrow, hopen⟩ := accessible_eq_true.mp h
  obtain ⟨huid, hid⟩ := Prod.mk.inj (userChannel?_place hrow)
  unfold isCandidate
  rw [Bool.or_eq_true]
  exact .inr (List.any_eq_true.mpr
    ⟨row, List.mem_of_find?_eq_some hrow, by simp [huid, hid, hopen]⟩)

/-- A candidate that the new cursor has passed is on the page, or was passed before. -/
theorem PageWalked.covers {after cursor : Option RtChannelId}
    (h : PageWalked db db' uid after page cursor) (hlog : Log db) (hchannel : channel ∈ db.channels)
    (hcandidate : db.isCandidate uid channel = true)
    (hcursor : ∀ last, cursor = some last → channelOrder channel.id ≤ channelOrder last) :
    channel ∈ page ∨ ∃ first, after = some first ∧
    channelOrder channel.id ≤ channelOrder first := by
  by_cases hbehind : ∀ first, after = some first → channelOrder first < channelOrder channel.id
  · refine .inl ?_
    have hmem : channel ∈ db.candidates uid after :=
      mem_candidates.mpr ⟨hchannel, hcandidate, hbehind⟩
    rcases h.cursor_eq with ⟨_, hpage⟩ | ⟨last, hlast, rfl⟩
    · rw [hpage]
      exact hmem
    · have hsorted : (db.candidates uid after).Pairwise
          fun a b => channelOrder a.id ≤ channelOrder b.id := pairwise_insertionSort_key _
      have hlastMem : last ∈ db.candidates uid after := by
        have hin := List.mem_of_getLast? hlast
        rw [h.page_eq] at hin
        exact List.mem_of_mem_take hin
      rw [h.page_eq] at hlast ⊢
      rcases mem_take_of_le hsorted (List.mem_of_getLast? hlast) hmem
        (hcursor last.id rfl) with hpage | hsame
      · exact hpage
      · rw [hlog.channelIds.eq hchannel (mem_candidates.mp hlastMem).1 (channelOrder_inj hsame)]
        exact List.mem_of_getLast? hlast
  · push Not at hbehind
    exact .inr hbehind

theorem PageWalked.exact {after cursor : Option RtChannelId}
    (h : PageWalked db db' uid after page cursor) (huser : uid.head? = some entityUser)
    (hlog : Log db) (hexact : Exact db) : Exact db' := by
  obtain ⟨mid, changes, hwalk, rfl⟩ := h.walked
  obtain ⟨hwrites, hothers, hpageExact⟩ := reconcileChannels_eq_ok hwalk
  have hsub {channel : RtChannelRow} (hchannel : channel ∈ page) : channel ∈ db.channels := by
    rw [h.page_eq] at hchannel
    exact (mem_candidates.mp (List.mem_of_mem_take hchannel)).1
  have hkeyed : Keyed RtChannelRow.id page := by
    rw [h.page_eq]
    refine List.Nodup.sublist ((List.take_sublist _ _).map _) ?_
    refine (((List.perm_insertionSort _ _).map _).nodup_iff).mpr ?_
    exact List.Nodup.sublist (List.filter_sublist.map _) hlog.channelIds
  have hwalkedUsers := hwrites.users (fun a row hrow => by rw [hrow.place.1]; exact huser)
    hexact.users
  have hinbox (u : List UInt8) := mid.inbox?_updateInbox uid
    (fun row => { row with reconcileDirty := false, reconcileAfter := cursor }) (fun _ => rfl) u
  refine ⟨fun u inbox hsome => ?_, fun u inbox hsome channel hchannel hpassed => ?_⟩
  · rw [hinbox] at hsome
    split at hsome
    · rename_i hu
      rw [hu]
      exact huser
    · exact hwalkedUsers u inbox hsome
  · have hmem : channel ∈ db.channels := by
      have hsame : mid.channels = db.channels := hwrites.sameChat.symm_fields.1
      exact hsame ▸ hchannel
    have hread : (mid.updateInbox uid fun row =>
        { row with reconcileDirty := false, reconcileAfter := cursor }).Readable u channel ↔
          db.Readable u channel := hwrites.sameChat.readable u channel
    rw [hread]
    show mid.accessible u channel.id = true ↔ db.Readable u channel
    rw [hinbox] at hsome
    split at hsome
    · rename_i hu
      subst hu
      obtain ⟨before, _, rfl⟩ := Option.map_eq_some_iff.mp hsome
      by_cases hpage : channel ∈ page
      · exact hpageExact hkeyed channel hpage
      · -- not on the page: passed before, or no candidate
        have hrow : mid.accessible u channel.id = db.accessible u channel.id := by
          refine hothers u channel.id ?_
          rintro ⟨_, other, hother, hid⟩
          exact hpage (hlog.channelIds.eq (hsub hother) hmem hid ▸ hother)
        rw [hrow]
        have hcovers (hcandidate : db.isCandidate u channel = true) :
            db.accessible u channel.id = true ↔ db.Readable u channel := by
          rcases h.covers hlog hmem hcandidate hpassed.2 with hin | ⟨first, rfl, hle⟩
          · exact absurd hin hpage
          · obtain ⟨inbox, hknown, hnone | ⟨hclean, hafter⟩⟩ := h.inboxKnown
            · cases hnone
            · refine hexact.exact u inbox hknown channel hmem ⟨hclean, fun last hlast => ?_⟩
              rw [hafter] at hlast
              cases hlast
              exact hle
        constructor
        · exact fun hopen => (hcovers (isCandidate_of_accessible hopen)).mp hopen
        · exact fun hread => (hcovers hread.isCandidate).mpr hread
    · rename_i hu
      have hrow : mid.accessible u channel.id = db.accessible u channel.id :=
        hothers u channel.id fun hboth => hu hboth.1
      obtain ⟨before, hbefore, hclean, hafter⟩ := hwrites.walk hsome hpassed.1
      rw [hrow]
      exact hexact.exact u before hbefore channel hmem ⟨hclean, by rw [hafter]; exact hpassed.2⟩

theorem ensureInbox_exact (h : db.ensureInbox uid = .ok mid) (huser : uid.head? = some entityUser)
    (hexact : Exact db) : Exact mid := by
  obtain ⟨hsame, hinbox⟩ := ensureInbox_eq_ok h
  refine ⟨fun u inbox hsome => ?_, fun u inbox hsome channel hchannel hpassed => ?_⟩
  · rw [hinbox] at hsome
    split at hsome
    · rename_i hu
      rw [hu]
      exact huser
    · exact hexact.users u inbox hsome
  · have hbefore : db.inbox? u = some inbox := by
      rw [hinbox] at hsome
      split at hsome
      · rename_i hu
        subst hu
        unfold inboxOrNew at hsome
        cases hrow : db.inbox? u with
        | none =>
          -- a new inbox is dirty
          rw [hrow] at hsome
          cases hsome
          cases hpassed.1
        | some before =>
          rw [hrow] at hsome
          exact hsome
      · exact hsome
    rw [hsame] at hchannel ⊢
    exact hexact.exact u inbox hbefore channel hchannel hpassed

/-! ## Roster changes -/

theorem inbox?_invalidate (db : RtDatabase) (uid u : List UInt8) :
    (db.invalidate uid).inbox? u = if u = uid then (db.inbox? uid).map
      fun row => { row with reconcileDirty := true, reconcileAfter := none } else db.inbox? u :=
  db.inbox?_updateInbox uid
    (fun row => { row with reconcileDirty := true, reconcileAfter := none }) (fun _ => rfl) u

/-- An inbox is as before, or it is marked. -/
def Kept (db db' : RtDatabase) : Prop :=
  ∀ uid inbox', db'.inbox? uid = some inbox' → ∃ inbox, db.inbox? uid = some inbox ∧
    inbox'.version = inbox.version ∧ (inbox'.reconcileDirty = false → inbox' = inbox)

theorem Kept.trans {a b c : RtDatabase} (hab : Kept a b) (hbc : Kept b c) : Kept a c := by
  intro uid last hlast
  obtain ⟨mid, hmid, hversion, hsame⟩ := hbc uid last hlast
  obtain ⟨first, hfirst, hversion', hsame'⟩ := hab uid mid hmid
  refine ⟨first, hfirst, hversion.trans hversion', fun hclean => ?_⟩
  have heq := hsame hclean
  rw [heq] at hclean ⊢
  exact hsame' hclean

theorem kept_of_eq (h : db'.inboxes = db.inboxes) : Kept db db' := by
  intro uid inbox hinbox
  rw [inbox?_of_eq h] at hinbox
  exact ⟨inbox, hinbox, rfl, fun _ => rfl⟩

theorem kept_invalidate (db : RtDatabase) (uid : List UInt8) : Kept db (db.invalidate uid) := by
  intro u inbox' hinbox
  rw [inbox?_invalidate] at hinbox
  split at hinbox
  · rename_i hu
    obtain ⟨inbox, hbefore, rfl⟩ := Option.map_eq_some_iff.mp hinbox
    refine ⟨inbox, hu ▸ hbefore, rfl, fun hclean => ?_⟩
    cases hclean
  · exact ⟨inbox', hinbox, rfl, fun _ => rfl⟩

theorem kept_foldl_invalidate (uids : List (List UInt8)) (db : RtDatabase) :
    Kept db (uids.foldl invalidate db) := by
  induction uids generalizing db with
  | nil => exact kept_of_eq rfl
  | cons uid uids ih => exact (kept_invalidate db uid).trans (ih _)

variable {inbox : RtInboxRow}

/-- Marking is for good: the inbox of a marked user is dirty, or there is none. -/
theorem not_clean_invalidate (h : (db.invalidate uid).inbox? uid = some inbox) :
    inbox.reconcileDirty = true := by
  rw [inbox?_invalidate, if_pos rfl] at h
  obtain ⟨_, _, rfl⟩ := Option.map_eq_some_iff.mp h
  rfl

theorem ne_of_clean {party : List UInt8} (h : (db.invalidate party).inbox? uid = some inbox)
    (hclean : inbox.reconcileDirty = false) : ¬ party = uid := by
  rintro rfl
  rw [not_clean_invalidate h] at hclean
  cases hclean

theorem dirty_of_kept (h : Kept db db')
    (hdirty : ∀ inbox, db.inbox? uid = some inbox → inbox.reconcileDirty = true)
    (hinbox : db'.inbox? uid = some inbox) : inbox.reconcileDirty = true := by
  obtain ⟨before, hbefore, _, hsame⟩ := h uid inbox hinbox
  by_contra hclean
  rw [Bool.not_eq_true] at hclean
  rw [hsame hclean, hdirty before hbefore] at hclean
  cases hclean

theorem dirty_foldl_invalidate (huid : uid ∈ uids)
    (h : (uids.foldl invalidate db).inbox? uid = some inbox) : inbox.reconcileDirty = true := by
  induction uids generalizing db with
  | nil => cases huid
  | cons first uids ih =>
    by_cases hlater : uid ∈ uids
    · exact ih hlater h
    · obtain rfl : uid = first := (List.mem_cons.mp huid).resolve_right hlater
      exact dirty_of_kept (kept_foldl_invalidate uids _) (fun _ => not_clean_invalidate) h

/-- A change of the roster keeps the rows exact if each user whose inbox is still clean has the
    roles they had. -/
theorem Exact.of_kept (hexact : Exact db) (hkept : Kept db db')
    (hchannels : db'.channels = db.channels) (hrows : db'.userChannels = db.userChannels)
    (hroles : ∀ uid inbox, db'.inbox? uid = some inbox → inbox.reconcileDirty = false →
      ∀ team, db'.membershipRole uid team = db.membershipRole uid team) : Exact db' := by
  refine ⟨fun uid inbox' hinbox => ?_, fun uid inbox' hinbox channel hchannel hpassed => ?_⟩
  · obtain ⟨inbox, hbefore, _⟩ := hkept uid inbox' hinbox
    exact hexact.users uid inbox hbefore
  · obtain ⟨inbox, hbefore, _, hsame⟩ := hkept uid inbox' hinbox
    have hreadable : db'.Readable uid channel ↔ db.Readable uid channel := by
      unfold Readable
      rw [hroles uid inbox' hinbox hpassed.1]
    rw [hsame hpassed.1] at hpassed
    rw [hchannels] at hchannel
    rw [accessible_of_eq hrows, hreadable]
    exact hexact.exact uid inbox hbefore channel hchannel hpassed

theorem membershipRole_of_memberRow {team : List UInt8}
    (h : db'.memberRow? uid team = db.memberRow? uid team) :
    db'.membershipRole uid team = db.membershipRole uid team := by
  unfold membershipRole
  rw [h]

theorem Exact.insertMember (hexact : Exact db) (row : RtMemberRow) :
    Exact (db.insertMember row) := by
  refine hexact.of_kept (kept_invalidate _ _) rfl rfl fun uid inbox hinbox hclean team => ?_
  have hne := ne_of_clean hinbox hclean
  refine membershipRole_of_memberRow ?_
  show (db.teamMembers ++ [row]).find? (fun row => row.teamId = team && db.isChatTeam team &&
    row.partyId = uid && row.isLocal db.host) = db.memberRow? uid team
  simp [hne, memberRow?]

theorem Exact.deleteMember {db : RtDatabase} (hexact : Exact db) (row : RtMemberRow) :
    Exact (db.deleteMember row) := by
  refine hexact.of_kept (kept_invalidate _ _) rfl rfl fun uid inbox hinbox hclean team => ?_
  have hne := ne_of_clean hinbox hclean
  refine membershipRole_of_memberRow ?_
  exact find?_erase_of_not (by simp [hne]) db.teamMembers

theorem Exact.updateMember {db : RtDatabase} (hexact : Exact db) (old new : RtMemberRow) :
    Exact (db.updateMember old new) := by
  unfold RtDatabase.updateMember
  split
  · rename_i heq
    subst heq
    unfold replaceMember
    rw [map_replace_self]
    exact hexact
  · refine hexact.of_kept ?_ rfl rfl fun uid inbox hinbox hclean team => ?_
    · exact (kept_invalidate _ _).trans (kept_invalidate _ _)
    · have hold : ¬ old.partyId = uid := by
        rintro rfl
        rw [dirty_of_kept (kept_invalidate _ _) (fun _ => not_clean_invalidate) hinbox] at hclean
        cases hclean
      have hnew := ne_of_clean hinbox hclean
      refine membershipRole_of_memberRow ?_
      exact find?_map_replace (by simp [hold]) (by simp [hnew]) db.teamMembers

theorem isChatTeam_replaceTeam {old new : RtTeamRow} (hid : new.teamId = old.teamId)
    {team : List UInt8} (hteam : team ≠ new.teamId) :
    (db.replaceTeam old new).isChatTeam team = db.isChatTeam team := by
  unfold replaceTeam isChatTeam
  rw [List.any_map]
  congr 1
  funext row
  rw [Function.comp_apply]
  by_cases hrow : row = old
  · have hne : ¬ new.teamId = team := fun heq => hteam heq.symm
    rw [if_pos hrow, hrow]
    simp [hne, hid ▸ hne]
  · rw [if_neg hrow]

theorem memberRow?_replaceTeam {old new : RtTeamRow} (hid : new.teamId = old.teamId)
    (hnone : ∀ row ∈ db.teamMembers, row.teamId = new.teamId → row.partyId ≠ uid)
    (team : List UInt8) :
    (db.replaceTeam old new).memberRow? uid team = db.memberRow? uid team := by
  unfold memberRow?
  by_cases hteam : team = new.teamId
  · have hempty (chat : Bool) : (db.teamMembers.find? fun row => row.teamId = team && chat &&
        row.partyId = uid && row.isLocal db.host) = none := by
      refine List.find?_eq_none.mpr fun row hrow => ?_
      simp only [Bool.and_eq_true, decide_eq_true_eq]
      rintro ⟨⟨⟨hrowTeam, _⟩, hparty⟩, _⟩
      exact hnone row hrow (hrowTeam.trans hteam) hparty
    exact (hempty _).trans (hempty _).symm
  · rw [isChatTeam_replaceTeam hid hteam]
    rfl

theorem Exact.updateTeam {db : RtDatabase} (hexact : Exact db) {old new : RtTeamRow}
    (hid : new.teamId = old.teamId) : Exact (db.updateTeam old new) := by
  unfold RtDatabase.updateTeam
  split
  · rename_i hsame
    have heq : new = old := by
      obtain ⟨hhost, hkind⟩ := hsame
      cases old
      cases new
      simp_all
    subst heq
    unfold replaceTeam
    rw [map_replace_self]
    exact hexact
  · have hrest := foldl_invalidate
      ((db.teamMembers.filter fun row => row.teamId = new.teamId).map (·.partyId))
      (db.replaceTeam old new)
    refine hexact.of_kept (kept_foldl_invalidate _ _) ?_ ?_ fun uid inbox hinbox hclean team => ?_
    · rw [hrest]
      rfl
    · rw [hrest]
      rfl
    · -- a user in the roster of the team is marked
      have hnone : ∀ row ∈ db.teamMembers, row.teamId = new.teamId → row.partyId ≠ uid := by
        rintro row hrow hteam rfl
        have hmarked : row.partyId ∈
            (db.teamMembers.filter fun row => row.teamId = new.teamId).map (·.partyId) :=
          List.mem_map_of_mem (List.mem_filter.mpr ⟨hrow, by simp [hteam]⟩)
        rw [dirty_foldl_invalidate hmarked hinbox] at hclean
        cases hclean
      rw [hrest]
      exact membershipRole_of_memberRow (memberRow?_replaceTeam hid hnone team)

/-! ## Steps -/

/-- The inbox rows and the versions of the inboxes are the same. -/
structure SameRows (db db' : RtDatabase) : Prop where
  rows : db'.userChannels = db.userChannels
  head : ∀ uid, db'.inboxHead uid = db.inboxHead uid

theorem SameRows.trans {a b c : RtDatabase} (hab : SameRows a b) (hbc : SameRows b c) :
    SameRows a c :=
  ⟨hbc.rows.trans hab.rows, fun uid => (hbc.head uid).trans (hab.head uid)⟩

theorem SameRows.of_eq (hrows : db'.userChannels = db.userChannels)
    (hinboxes : db'.inboxes = db.inboxes) : SameRows db db' :=
  ⟨hrows, fun uid => by rw [inboxHead, inbox?_of_eq hinboxes]; rfl⟩

theorem SameRows.of_same {a : RtDatabase} (h : SameRows a db')
    (hrows : a.userChannels = db.userChannels) (hinboxes : a.inboxes = db.inboxes) :
    SameRows db db' := (SameRows.of_eq hrows hinboxes).trans h

theorem SameRows.updateInbox (db : RtDatabase) (uid : List UInt8) {change : RtInboxRow → RtInboxRow}
    (huid : ∀ row, (change row).uid = row.uid)
    (hversion : ∀ row, (change row).version = row.version) :
    SameRows db (db.updateInbox uid change) := by
  refine ⟨rfl, fun u => ?_⟩
  unfold inboxHead
  rw [db.inbox?_updateInbox uid change huid]
  split
  · rename_i hu
    rw [hu]
    cases db.inbox? uid with
    | none => rfl
    | some row => exact hversion row
  · rfl

theorem SameRows.invalidate (db : RtDatabase) (uid : List UInt8) :
    SameRows db (db.invalidate uid) :=
  SameRows.updateInbox db uid (fun _ => rfl) fun _ => rfl

theorem SameRows.foldl_invalidate (uids : List (List UInt8)) (db : RtDatabase) :
    SameRows db (uids.foldl RtDatabase.invalidate db) := by
  induction uids generalizing db with
  | nil => exact SameRows.of_eq rfl rfl
  | cons uid uids ih => exact (SameRows.invalidate db uid).trans (ih _)

theorem SameRows.ensureInbox (h : db.ensureInbox uid = .ok mid) : SameRows db mid := by
  obtain ⟨hsame, hinbox⟩ := ensureInbox_eq_ok h
  refine ⟨by rw [hsame], fun u => ?_⟩
  rw [inboxHead, hinbox]
  split
  · rename_i hu
    rw [hu]
    exact db.inboxOrNew_version uid
  · rfl

/-- What a step does to the inbox rows is a run of writes. -/
theorem Step.writes (h : Step db db') : ∃ allowed a b,
    SameRows db a ∧ Writes allowed a b ∧ SameRows b db' := by
  have hquiet (hsame : SameRows db db') : ∃ allowed a b,
      SameRows db a ∧ Writes allowed a b ∧ SameRows b db' :=
    ⟨fun _ _ => True, db, db, SameRows.of_eq rfl rfl, Writes.refl db, hsame⟩
  cases h with
  | create h =>
    obtain ⟨mid, channel, uids, hcreated⟩ := rtCreateChannelWithFormat_cases h
    refine ⟨_, mid, _, ?_, hcreated.writes, SameRows.of_eq rfl rfl⟩
    rw [hcreated.inserted]
    exact SameRows.of_eq rfl rfl
  | send h =>
    obtain ⟨_, channel, _, row, _, _, _, _, _, _, _, _, hcase⟩ := rtSend_cases h
    rcases hcase with ⟨_, rfl⟩ | ⟨_, mid, uids, happended⟩
    · exact hquiet (SameRows.of_eq rfl rfl)
    · refine ⟨_, mid, _, ?_, happended.writes, SameRows.of_eq rfl rfl⟩
      rw [happended.inserted]
      exact SameRows.of_eq rfl rfl
  | readThrough h =>
    exact ⟨_, db, _, SameRows.of_eq rfl rfl, (rtReadThrough_cases h).writes,
      SameRows.of_eq rfl rfl⟩
  | reconcile h =>
    obtain ⟨_, mid, hmid, hcase⟩ := rtReconcileInboxPage_cases h
    rcases hcase with rfl | ⟨after, page, cursor, hwalked⟩
    · exact hquiet (SameRows.ensureInbox hmid)
    · obtain ⟨last, changes, hwalk, rfl⟩ := hwalked.walked
      exact ⟨_, mid, last, SameRows.ensureInbox hmid, (reconcileChannels_eq_ok hwalk).1,
        SameRows.updateInbox last _ (fun _ => rfl) fun _ => rfl⟩
  | insertMember row =>
    exact hquiet ((SameRows.invalidate { db with teamMembers := db.teamMembers ++ [row] }
      row.partyId).of_same rfl rfl)
  | @deleteMember row h =>
    exact hquiet ((SameRows.invalidate { db with teamMembers := db.teamMembers.erase row }
      row.partyId).of_same rfl rfl)
  | @updateMember old h new =>
    refine hquiet ?_
    unfold RtDatabase.updateMember
    split
    · exact SameRows.of_eq rfl rfl
    · have hmarked := SameRows.invalidate (db.replaceMember old new) old.partyId
      exact (hmarked.trans (SameRows.invalidate _ _)).of_same rfl rfl
  | @updateTeam old new h hid =>
    refine hquiet ?_
    unfold RtDatabase.updateTeam
    split
    · exact SameRows.of_eq rfl rfl
    · exact (SameRows.foldl_invalidate _ (db.replaceTeam old new)).of_same rfl rfl
  | other permitsNative users devices teamKeys => exact hquiet (SameRows.of_eq rfl rfl)

theorem SameRows.userChannel (h : SameRows db db') (uid : List UInt8) (id : RtChannelId) :
    db'.userChannel? uid id = db.userChannel? uid id := by
  unfold userChannel?
  rw [h.rows]

theorem Versions.of_sameRows (hversions : Versions db) (h : SameRows db db') : Versions db' := by
  refine ⟨by rw [h.rows]; exact hversions.keyed, fun uid id row hrow => ?_, ?_⟩
  · rw [h.userChannel] at hrow
    rw [h.head]
    exact hversions.le_head uid id row hrow
  · intro uid a b rowA rowB hA hB
    rw [h.userChannel] at hA hB
    exact hversions.distinct uid a b rowA rowB hA hB

theorem Step.versions (h : Step db db') (hversions : Versions db) : Versions db' := by
  obtain ⟨_, a, b, hbefore, hwrites, hafter⟩ := h.writes
  exact (hwrites.versions (hversions.of_sameRows hbefore)).of_sameRows hafter

/-- A step that changes a row gives it a version that the inbox had not reached. -/
theorem Step.changed (h : Step db db') (uid : List UInt8) (id : RtChannelId) :
    db'.userChannel? uid id = db.userChannel? uid id ∨
      ∃ row, db'.userChannel? uid id = some row ∧
        (db.inboxHead uid).toNat < row.inboxVersion.toNat := by
  obtain ⟨_, a, b, hbefore, hwrites, hafter⟩ := h.writes
  rw [hafter.userChannel, ← hbefore.userChannel, ← hbefore.head]
  exact hwrites.changed uid id

theorem Step.exact (h : Step db db') (hlog : Log db) (hsingle : SingleEntry db)
    (hexact : Exact db) :
    Exact db' := by
  cases h with
  | create h =>
    obtain ⟨mid, channel, uids, hcreated⟩ := rtCreateChannelWithFormat_cases h
    exact hcreated.exact hlog hsingle hexact
  | send h =>
    obtain ⟨_, channel, _, row, _, _, _, _, _, _, _, _, hcase⟩ := rtSend_cases h
    rcases hcase with ⟨_, rfl⟩ | ⟨_, mid, uids, happended⟩
    · exact hexact
    · exact happended.exact hlog hsingle hexact
  | readThrough h => exact (rtReadThrough_cases h).exact hlog hexact
  | reconcile h =>
    obtain ⟨huser, mid, hmid, hcase⟩ := rtReconcileInboxPage_cases h
    have hmade := ensureInbox_exact hmid huser hexact
    rcases hcase with rfl | ⟨after, page, cursor, hwalked⟩
    · exact hmade
    · have hquiet : Quiet db mid := by
        rw [(ensureInbox_eq_ok hmid).1]
        exact Quiet.of_eq rfl rfl rfl
      have hmadeLog : Log mid := hlog.of_eq hquiet.messages hquiet.channels
        (hquiet.known hlog.known) (hquiet.read hlog.read)
      exact hwalked.exact huser hmadeLog hmade
  | insertMember row => exact hexact.insertMember row
  | deleteMember h => exact hexact.deleteMember _
  | updateMember h new => exact hexact.updateMember _ new
  | updateTeam h hid => exact hexact.updateTeam hid
  | other permitsNative users devices teamKeys => exact ⟨hexact.users, hexact.exact⟩

/-! ## Runs -/

/-- The inbox of the user is reconciled. -/
def Clean (db : RtDatabase) (uid : List UInt8) : Prop :=
  ∃ inbox, db.inbox? uid = some inbox ∧ reconcileState inbox = .clean

theorem reconcileState_eq_clean (h : reconcileState inbox = .clean) :
    inbox.reconcileDirty = false ∧ inbox.reconcileAfter = none := by
  unfold reconcileState at h
  split at h
  · cases h
  · rename_i hdirty
    split at h
    · cases h
    · rename_i hafter
      exact ⟨by simpa using hdirty, by simpa using hafter⟩

theorem Exact.clean (hexact : Exact db) (h : Clean db uid) (hchannel : channel ∈ db.channels) :
    db.accessible uid channel.id = true ↔ db.Readable uid channel := by
  obtain ⟨inbox, hinbox, hstate⟩ := h
  obtain ⟨hdirty, hafter⟩ := reconcileState_eq_clean hstate
  refine hexact.exact uid inbox hinbox channel hchannel ⟨hdirty, fun cursor hcursor => ?_⟩
  rw [hafter] at hcursor
  cases hcursor

theorem Start.versions (h : Start db) : Versions db := by
  have hnone (uid : List UInt8) (id : RtChannelId) : db.userChannel? uid id = none := by
    unfold userChannel?
    rw [h.userChannels]
    rfl
  refine ⟨by rw [h.userChannels]; exact keyed_nil, fun uid id row hrow => ?_, ?_⟩
  · rw [hnone] at hrow
    cases hrow
  · intro uid a b rowA rowB hA
    rw [hnone] at hA
    cases hA

theorem Start.exact (h : Start db) : Exact db := by
  have hnone (uid : List UInt8) : db.inbox? uid = none := by
    unfold inbox?
    rw [h.inboxes]
    rfl
  refine ⟨fun uid inbox hinbox => ?_, fun uid inbox hinbox => ?_⟩ <;>
  · rw [hnone] at hinbox
    cases hinbox

/-- A step from a database in which no user has two local entries in one roster. -/
def SingleStep (db db' : RtDatabase) : Prop := Step db db' ∧ SingleEntry db

/-- What holds of the inboxes in every database of a run. -/
structure Inboxes (db : RtDatabase) : Prop where
  log : Log db
  versions : Versions db
  exact : Exact db

theorem Inboxes.step {db db' : RtDatabase} (h : Inboxes db) (hstep : SingleStep db db') :
    Inboxes db' :=
  ⟨hstep.1.log h.log, hstep.1.versions h.versions, hstep.1.exact h.log hstep.2 h.exact⟩

theorem Inboxes.run {start : RtDatabase} (hstart : Start start)
    (hrun : ReflTransGen SingleStep start db) : Inboxes db := by
  induction hrun with
  | refl => exact ⟨hstart.log, hstart.versions, hstart.exact⟩
  | tail _ hstep ih => exact ih.step hstep

/-- In every database that a run leads to, a clean inbox is exact, and versions tell its rows and
    their changes apart. -/
theorem inboxes_reconciled {start db : RtDatabase} (hstart : Start start)
    (hrun : ReflTransGen SingleStep start db) :
    (∀ uid, Clean db uid → ∀ channel ∈ db.channels,
      (∃ row, db.userChannel? uid channel.id = some row ∧ row.accessible = true) ↔
        db.Readable uid channel) ∧
    (db.userChannels.map (·.place)).Nodup ∧
    (∀ uid id row, db.userChannel? uid id = some row → row.inboxVersion ≤ db.inboxHead uid) ∧
    (∀ uid a b rowA rowB, db.userChannel? uid a = some rowA → db.userChannel? uid b = some rowB →
      rowA.inboxVersion = rowB.inboxVersion → a = b) ∧
    ∀ db', SingleStep db db' → ∀ uid id, db'.userChannel? uid id ≠ db.userChannel? uid id →
      ∃ row, db'.userChannel? uid id = some row ∧ db.inboxHead uid < row.inboxVersion ∧
        row.inboxVersion ≤ db'.inboxHead uid := by
  have hinboxes := Inboxes.run hstart hrun
  refine ⟨fun uid hclean channel hchannel => ?_, hinboxes.versions.keyed, fun uid id row hrow => ?_,
    hinboxes.versions.distinct, fun db' hstep uid id hne => ?_⟩
  · rw [← accessible_eq_true]
    exact hinboxes.exact.clean hclean hchannel
  · exact UInt64.le_iff_toNat_le.mpr (hinboxes.versions.le_head uid id row hrow)
  · rcases hstep.1.changed uid id with hsame | ⟨row, hrow, hlt⟩
    · exact absurd hsame hne
    · refine ⟨row, hrow, UInt64.lt_iff_toNat_lt.mpr hlt, ?_⟩
      exact UInt64.le_iff_toNat_le.mpr ((hinboxes.step hstep).versions.le_head uid id row hrow)

end RtDatabase

namespace RtSample

open RtDatabase

def reconciled : RtDatabase := after created (created.rtReconcileInbox aliceActor 9000)

theorem singleEntry_of_nodup (h : (db.teamMembers.map (·.partyId)).Nodup) : SingleEntry db :=
  fun _ ha _ hb _ _ _ hparty => Keyed.eq h ha hb hparty

theorem clean_of_state {uid : List UInt8} (h : (db.inbox? uid).map reconcileState = some .clean) :
    Clean db uid :=
  Option.map_eq_some_iff.mp h

theorem readable_of_owner {uid : List UInt8} (h : db.channels.all (fun channel =>
      db.membershipRole uid channel.team = .ok (some .owner) ∧
        ChannelPolicy.new channel.metadata = .ok ⟨minRole, minRole, minRole⟩) = true) :
    ∀ channel ∈ db.channels, db.Readable uid channel := by
  intro channel hchannel
  obtain ⟨hrole, hpolicy⟩ := of_decide_eq_true (List.all_eq_true.mp h channel hchannel)
  exact ⟨.owner, _, hrole, hpolicy, by decide⟩

theorem reconciled_run : ReflTransGen SingleStep start reconciled := by
  obtain ⟨_, hcreate⟩ := created_ok
  obtain ⟨_, hreconcile⟩ : ∃ value,
      created.rtReconcileInbox aliceActor 9000 = .ok (value, reconciled) :=
    eq_ok_after (by decide +kernel)
  exact (ReflTransGen.single ⟨.create hcreate, singleEntry_of_nodup (by decide)⟩).tail
    ⟨.reconcile hreconcile, singleEntry_of_nodup (by decide +kernel)⟩

/-- The owner of the team has an accessible row for the channel. -/
theorem reconciled_accessible : Clean reconciled alice ∧
    ∃ row, reconciled.userChannel? alice channelId = some row ∧ row.accessible = true := by
  have hclean : Clean reconciled alice := clean_of_state (by decide +kernel)
  have hchannel : reconciled.channels.any (fun channel => channel.id = channelId) = true := by
    decide +kernel
  obtain ⟨channel, hmem, hid⟩ := List.any_eq_true.mp hchannel
  obtain ⟨hexact, -⟩ := inboxes_reconciled start_starts reconciled_run
  refine ⟨hclean, ?_⟩
  rw [← of_decide_eq_true hid]
  exact (hexact alice hclean channel hmem).mpr (readable_of_owner (by decide +kernel) channel hmem)

end RtSample

end Foks.ServerDb
