/-
  The chat inbox of a client and the server's.

  The client asks for rows with a version above its cursor only, so its copy is right as long as
  whatever a reader should see comes with a new version of their row. `Synced` is this invariant:
  of the rows up to its cursor the copy shows what the server would serve. A server step keeps it if
  it stamps the rows of the channel it changes, and a page that is served by a reconciled server
  keeps it because the page has all rows up to its last one.

  A send stamps the readers of the channel. The row of a user who has lost access and whose inbox is
  not reconciled yet is not stamped; when they get access again before the reconciliation, the row
  is found as it should be and keeps its version, and the client never learns of the message
  (`Sample.stale_drained`).
-/
import Foks.Client.ChatInbox
import Foks.ServerDb.RealtimeInbox

namespace Foks.Chat

open Foks.Lib Foks.Proto Foks.ServerDb Foks.ServerDb.RtDatabase Foks.Client Relation

/-! ## Runs of the system -/

section

variable (uid : List UInt8)

/-- When the step adds a message, the user may read its channel if their row is accessible. -/
def ReadersStamped (db db' : RtDatabase) : Prop :=
  ∀ row, db'.messages = db.messages ++ [row] → ∀ channel ∈ db.channels,
    channel.id = row.channelId → db.accessible uid channel.id = true → db.Readable uid channel

/-- A step of the server that the condition allows. -/
def SettledStep (db db' : RtDatabase) : Prop :=
  SingleStep db db' ∧ ReadersStamped uid db db'

/-- The answers to a version request come from the server as it is. -/
def HonestVersion (db : RtDatabase) (version : Except Client.Error UInt64) : Prop :=
  ∀ head, version = .ok head → ∃ actor : RealtimeActor, ∃ now, actor.uid = uid ∧
    db.rtInboxVersion actor now = .ok head

/-- The answers to a page request come from the server as it is, with a clean inbox. -/
def HonestAnswer (db : RtDatabase) (query : RtChangedThreads)
    (answer : Except Client.Error RtInboxDelta) : Prop :=
  ∀ delta, answer = .ok delta → Clean db uid ∧ ∃ actor : RealtimeActor, ∃ now, actor.uid = uid ∧
    db.rtChangedThreads actor query now = .ok delta

/-- The server moves on between the requests of one drain: the version request is answered by the
    first database, page `n` by the one numbered `n + 1`. -/
structure Serves (step : RtDatabase → RtDatabase → Prop) (uid : List UInt8)
    (dbs : Nat → RtDatabase) (version : Except Client.Error UInt64)
    (fetch : Nat → RtChangedThreads → Except Client.Error RtInboxDelta) : Prop where
  moves : ∀ n, ReflTransGen step (dbs n) (dbs (n + 1))
  version : HonestVersion uid (dbs 0) version
  fetch : ∀ page query, HonestAnswer uid (dbs (page + 1)) query (fetch page query)

/-- A server and the inbox of one user's client, after any interleaving of server steps and drains.
    A drain may fail at any request. -/
inductive Run (step : RtDatabase → RtDatabase → Prop) (uid : List UInt8) :
    RtDatabase → ChatInbox → Prop where
  | start {db : RtDatabase} (h : Start db) : Run step uid db .empty
  | server {db db' : RtDatabase} {inbox : ChatInbox} (hrun : Run step uid db inbox)
      (hstep : step db db') : Run step uid db' inbox
  | drain {dbs : Nat → RtDatabase} {inbox inbox' : ChatInbox} {version : Except Client.Error UInt64}
      {fetch : Nat → RtChangedThreads → Except Client.Error RtInboxDelta}
      {result : Except Client.Error (ChatInboxState × Nat)} (hrun : Run step uid (dbs 0) inbox)
      (hserves : Serves step uid dbs version fetch)
      (hdrain : ChatInbox.drainInboxScope version fetch inbox = (result, inbox')) :
      Run step uid (dbs (chatInboxPages + 1)) inbox'

/-- The client shows every basic channel that the user may read as the server would serve it now. -/
def ShowsReadable (db : RtDatabase) (inbox : ChatInbox) : Prop :=
  ∀ channel ∈ db.channels, channel.format = 1 → db.Readable uid channel →
    ∃ row entry now, db.userChannel? uid channel.id = some row ∧
      db.inboxChannel uid row = .ok (some now) ∧ inbox.entry? channel.id = some entry ∧
      entry.inboxVersion = row.inboxVersion ∧ entry.metadata = now.metadata ∧
      now.readThrough ≤ entry.readThrough

end

/-! ## The invariant -/

/-- What the client is told about a channel. -/
def served (channel : RtChannelRow) (row : RtUserChannelRow) : RtInboxChannel :=
  ⟨channel.project, row.inboxVersion, row.readThrough, false, false⟩

/-- Up to its cursor the client shows what the server has. -/
structure Synced (uid : List UInt8) (db : RtDatabase) (inbox : ChatInbox) : Prop where
  cursor : inbox.chatInboxState.cursor.toNat ≤ (db.inboxHead uid).toNat
  head : inbox.chatInboxState.head.toNat ≤ (db.inboxHead uid).toNat
  entries : ∀ entry ∈ inbox.entries,
    entry.inboxVersion.toNat ≤ inbox.chatInboxState.cursor.toNat
  shown : ∀ channel ∈ db.channels, channel.format = 1 → ∀ row,
    db.userChannel? uid channel.id = some row → row.accessible = true →
    row.inboxVersion.toNat ≤ inbox.chatInboxState.cursor.toNat →
    ∃ entry, inbox.entry? channel.id = some entry ∧ ChatInbox.Shows entry (served channel row)

/-! ## Server steps -/

variable {db db' : RtDatabase} {inbox' : ChatInbox} {row : RtUserChannelRow}

section

variable {inbox : ChatInbox} {channel : RtChannelRow}

section

variable {uid : List UInt8} {db db' : RtDatabase}

theorem head_le_of_step (h : Step db db') (uid : List UInt8) :
    (db.inboxHead uid).toNat ≤ (db'.inboxHead uid).toNat := by
  obtain ⟨_, a, b, hbefore, hwrites, hafter⟩ := h.writes
  rw [hafter.head, ← hbefore.head]
  exact hwrites.head_le uid

/-- A channel that a reader reaches through an old row is as before. -/
theorem SettledStep.channel_of_old (h : SettledStep uid db db') (hinboxes : Inboxes db)
    (huser : uid.head? = some entityUser) (hchannel : channel ∈ db'.channels)
    (hrow : db'.userChannel? uid channel.id = some row) (haccessible : row.accessible = true) :
    (db.inboxHead uid).toNat < row.inboxVersion.toNat ∨
      db.userChannel? uid channel.id = some row ∧ channel ∈ db.channels := by
  obtain ⟨⟨hstep, hsingle⟩, hstamped⟩ := h
  rcases hstep.changed uid channel.id with hsame | ⟨new, hnew, hlt⟩
  · rw [hrow] at hsame
    rcases hstep.log_cases hinboxes.log with ⟨mid, created, uids, hcreated⟩ |
      ⟨mid, sent, message, uids, happended⟩ | hquiet
    · -- a row about the new channel is new
      have hchannels : db'.channels = db.channels ++ [created] := by
        rw [hcreated.writes.sameChat.symm_fields.1, hcreated.inserted]
      rw [hchannels] at hchannel
      rcases List.mem_append.mp hchannel with hold | hnew
      · exact .inr ⟨hsame.symm, hold⟩
      · obtain ⟨known, hknown, hid⟩ :=
          hinboxes.log.known row (List.mem_of_find?_eq_some hsame.symm)
        have hplace := (Prod.mk.inj (userChannel?_place hrow)).2
        rw [List.mem_singleton.mp hnew] at hplace
        exact absurd (hid.trans hplace) (hcreated.fresh known hknown).1
    · have hfields := happended.writes.sameChat.symm_fields
      have hchannels : db'.channels = db.channels.map (withLast message) := by
        rw [hfields.1, happended.inserted]
      have hmessages : db'.messages = db.messages ++ [message] := by
        rw [hfields.2.1, happended.inserted]
      rw [hchannels] at hchannel
      obtain ⟨before, hbefore, rfl⟩ := List.mem_map.mp hchannel
      rw [withLast_id] at hrow hsame ⊢
      by_cases hid : before.id = message.channelId
      · -- the user may read the channel, so the row was stamped
        obtain rfl : before = sent :=
          hinboxes.log.channelIds.eq hbefore happended.known (hid.trans happended.place)
        have hopen : db.accessible uid before.id = true :=
          accessible_eq_true.mpr ⟨row, hsame.symm, haccessible⟩
        have hreadable := hstamped message hmessages before hbefore hid hopen
        have hrecipient : uid ∈ uids := by
          refine (mem_recipients ?_ happended.recipients (project_team before)
            (new_project before) ?_).mpr ⟨huser, ?_⟩
          · rw [happended.inserted]
            exact hsingle
          · rw [happended.inserted]
            exact happended.team
          · rw [happended.inserted]
            exact hreadable
        obtain ⟨written, hwritten, hlt⟩ := happended.stamped uid hrecipient
        rw [hrow] at hwritten
        cases hwritten
        rw [happended.inserted] at hlt
        exact .inl hlt
      · refine .inr ⟨hsame.symm, ?_⟩
        rw [withLast, if_neg hid]
        exact hbefore
    · rw [hquiet.channels] at hchannel
      exact .inr ⟨hsame.symm, hchannel⟩
  · rw [hrow] at hnew
    cases hnew
    exact .inl hlt

theorem Synced.step {inbox : ChatInbox} (hsynced : Synced uid db inbox)
    (h : SettledStep uid db db') (hinboxes : Inboxes db) (huser : uid.head? = some entityUser) :
    Synced uid db' inbox := by
  have hle := head_le_of_step h.1.1 uid
  refine ⟨hsynced.cursor.trans hle, hsynced.head.trans hle, hsynced.entries, ?_⟩
  intro channel hchannel hformat row hrow haccessible hcursor
  have hbound := hsynced.cursor
  rcases h.channel_of_old hinboxes huser hchannel hrow haccessible with hlt | ⟨hrow, hold⟩
  · omega
  · exact hsynced.shown channel hold hformat row hrow haccessible hcursor

/-- What holds of the server and the client together. -/
structure Linked (uid : List UInt8) (db : RtDatabase) (inbox : ChatInbox) : Prop where
  inboxes : Inboxes db
  synced : Synced uid db inbox

theorem Linked.step {inbox : ChatInbox} (hlinked : Linked uid db inbox)
    (huser : uid.head? = some entityUser) (h : SettledStep uid db db') : Linked uid db' inbox :=
  ⟨hlinked.inboxes.step h.1, hlinked.synced.step h hlinked.inboxes huser⟩

theorem Linked.steps (hlinked : Linked uid db inbox) (huser : uid.head? = some entityUser)
    (h : ReflTransGen (SettledStep uid) db db') : Linked uid db' inbox := by
  induction h with
  | refl => exact hlinked
  | tail _ hstep ih => exact ih.step huser hstep

end

/-! ## Pages -/

section

variable {uid : List UInt8} {db : RtDatabase}

theorem inboxChannel_of_readable (hchannel : db.channelRow? row.channelId = some channel)
    (h : db.Readable uid channel) : db.inboxChannel uid row = .ok (some (served channel row)) := by
  obtain ⟨role, policy, hrole, hpolicy, hread⟩ := h
  have hdiscover : policy.canDiscover role = true := by
    exact (Bool.and_eq_true _ _ ▸ hread).1
  unfold inboxChannel RtDatabase.channel
  rw [hchannel]
  refine bind_eq_ok.mpr ⟨channel.project, rfl, bind_eq_ok.mpr ⟨some role, ?_,
    bind_eq_ok.mpr ⟨policy, ?_, ?_⟩⟩⟩
  · rw [project_team]
    exact hrole
  · rw [new_project]
    exact hpolicy
  · simp [hread, ChannelPolicy.project, hdiscover, okOr, served]

/-- When every row is about a channel that the user may read, the first rows are collected. -/
theorem collectChannels_eq_ok {room scan : Nat} {rows : List RtUserChannelRow}
    {channels : List RtInboxChannel}
    (hshown : ∀ row ∈ rows, ∃ channel, db.inboxChannel uid row = .ok (some channel))
    (h : db.collectChannels uid room scan rows = .ok channels) :
    List.Forall₂ (fun row channel => db.inboxChannel uid row = .ok (some channel))
      (rows.take room) channels := by
  induction rows generalizing room scan channels with
  | nil =>
    rw [collectChannels] at h
    cases h
    rw [List.take_nil]
    exact List.Forall₂.nil
  | cons row rows ih =>
    cases room with
    | zero =>
      rw [collectChannels] at h
      cases h
      exact List.Forall₂.nil
    | succ room =>
      cases scan with
      | zero =>
        cases h
      | succ scan =>
        obtain ⟨channel, hchannel⟩ := hshown row List.mem_cons_self
        rw [collectChannels, hchannel] at h
        obtain ⟨rest, hrest, rfl⟩ := map_eq_ok.mp h
        exact List.Forall₂.cons hchannel
          (ih (fun other hother => hshown other (List.mem_cons_of_mem _ hother)) hrest)

/-- The rows that a page is taken from. -/
def rowsSince (uid : List UInt8) (db : RtDatabase) (since head : UInt64) : List RtUserChannelRow :=
  db.userChannels.filter fun row => row.uid = uid && row.accessible &&
    (db.channelRow? row.channelId).any (fun channel => channel.format = 1) &&
    since < row.inboxVersion && row.inboxVersion ≤ head

theorem mem_rowsSince (hinboxes : Inboxes db) {since head : UInt64} :
    row ∈ rowsSince uid db since head ↔
    ∃ channel ∈ db.channels, channel.format = 1 ∧ db.userChannel? uid channel.id = some row ∧
      row.accessible = true ∧ since < row.inboxVersion ∧ row.inboxVersion ≤ head := by
  have hfind {id : RtChannelId} {channel : RtChannelRow} :
      db.channelRow? id = some channel ↔ channel ∈ db.channels ∧ channel.id = id :=
    hinboxes.log.channelIds.find?_eq_some
  have hplace {id : RtChannelId} : db.userChannel? uid id = some row ↔
      row ∈ db.userChannels ∧ row.place = (uid, id) :=
    hinboxes.versions.keyed.find?_eq_some
  simp only [rowsSince, List.mem_filter, Bool.and_eq_true, decide_eq_true_eq, Option.any_eq_true]
  constructor
  · rintro ⟨hmem, ⟨⟨⟨huid, haccessible⟩, channel, hchannel, hformat⟩, hsince⟩, hhead⟩
    obtain ⟨hchannel, hid⟩ := hfind.mp hchannel
    refine ⟨channel, hchannel, hformat, hplace.mpr ⟨hmem, ?_⟩, haccessible, hsince, hhead⟩
    exact Prod.ext huid hid.symm
  · rintro ⟨channel, hchannel, hformat, hrow, haccessible, hsince, hhead⟩
    obtain ⟨hmem, hrowPlace⟩ := hplace.mp hrow
    obtain ⟨huid, hid⟩ := Prod.mk.inj hrowPlace
    exact ⟨hmem, ⟨⟨⟨huid, haccessible⟩, channel, hfind.mpr ⟨hchannel, hid.symm⟩, hformat⟩, hsince⟩,
      hhead⟩

theorem pairwise_sorted_rows (rows : List RtUserChannelRow) :
    (rows.insertionSort fun a b => a.inboxVersion ≤ b.inboxVersion).Pairwise
      fun a b => a.inboxVersion.toNat ≤ b.inboxVersion.toNat := by
  exact List.pairwise_insertionSort _ rows

/-- A page of a server with a clean inbox: it shows rows of the user, and every row that was changed
    since the cursor up to the last one that it shows. -/
structure HonestPage (uid : List UInt8) (db : RtDatabase) (since : UInt64)
    (page : List RtInboxChannel) : Prop where
  shown : ∀ shown ∈ page, ∃ channel ∈ db.channels, ∃ row,
    db.userChannel? uid channel.id = some row ∧ shown = served channel row
  complete : ∀ channel ∈ db.channels, channel.format = 1 → ∀ row,
    db.userChannel? uid channel.id = some row → row.accessible = true →
    since.toNat < row.inboxVersion.toNat →
    (∃ shown ∈ page, row.inboxVersion.toNat ≤ shown.inboxVersion.toNat) →
    served channel row ∈ page

theorem honestPage_of_collected (hinboxes : Inboxes db) (hclean : Clean db uid) {since : UInt64}
    {room scan limit : Nat} {page : List RtInboxChannel}
    (h : db.collectChannels uid room scan (((rowsSince uid db since (db.inboxHead uid))
      |>.insertionSort fun a b => a.inboxVersion ≤ b.inboxVersion).take limit) = .ok page) :
    HonestPage uid db since page := by
  have hsorted := pairwise_sorted_rows (rowsSince uid db since (db.inboxHead uid))
  have hmem {row : RtUserChannelRow} := List.mem_insertionSort
    (fun a b : RtUserChannelRow => a.inboxVersion ≤ b.inboxVersion)
    (x := row) (l := rowsSince uid db since (db.inboxHead uid))
  generalize (rowsSince uid db since (db.inboxHead uid)).insertionSort
    (fun a b => a.inboxVersion ≤ b.inboxVersion) = rows at *
  -- the inbox is clean, so the user may read what is accessible
  have hserved {channel : RtChannelRow} {row : RtUserChannelRow} (hchannel : channel ∈ db.channels)
      (hrow : db.userChannel? uid channel.id = some row) (haccessible : row.accessible = true) :
      db.inboxChannel uid row = .ok (some (served channel row)) := by
    have hid := (Prod.mk.inj (userChannel?_place hrow)).2
    refine inboxChannel_of_readable ?_ ((hinboxes.exact.clean hclean hchannel).mp
      (accessible_eq_true.mpr ⟨row, hrow, haccessible⟩))
    exact hinboxes.log.channelIds.find?_eq_some.mpr ⟨hchannel, hid.symm⟩
  have hpage := collectChannels_eq_ok (fun row hrow => by
    obtain ⟨channel, hchannel, _, hfound, haccessible, _⟩ :=
      (mem_rowsSince hinboxes).mp (hmem.mp (List.mem_of_mem_take hrow))
    exact ⟨_, hserved hchannel hfound haccessible⟩) h
  rw [List.take_take] at hpage
  refine ⟨fun shown hshown => ?_, ?_⟩
  · obtain ⟨row, hrow, heq⟩ := exists_of_mem_forall₂ hpage hshown
    obtain ⟨channel, hchannel, _, hfound, haccessible, _⟩ :=
      (mem_rowsSince hinboxes).mp (hmem.mp (List.mem_of_mem_take hrow))
    rw [hserved hchannel hfound haccessible] at heq
    cases heq
    exact ⟨channel, hchannel, row, hfound, rfl⟩
  · rintro channel hchannel hformat row hrow haccessible hsince ⟨shown, hshown, hle⟩
    obtain ⟨taken, htaken, heq⟩ := exists_of_mem_forall₂ hpage hshown
    obtain ⟨other, hother, _, hfound, hotherOpen, _⟩ :=
      (mem_rowsSince hinboxes).mp (hmem.mp (List.mem_of_mem_take htaken))
    rw [hserved hother hfound hotherOpen] at heq
    cases heq
    have hin : row ∈ rows := hmem.mpr ((mem_rowsSince hinboxes).mpr
      ⟨channel, hchannel, hformat, hrow, haccessible, UInt64.lt_iff_toNat_lt.mpr hsince,
      UInt64.le_iff_toNat_le.mpr (hinboxes.versions.le_head uid channel.id row hrow)⟩)
    have hrowTaken : row ∈ rows.take (min room limit) := by
      rcases mem_take_of_le hsorted htaken hin hle with hrowTaken | hsame
      · exact hrowTaken
      · -- a version stands for one channel
        have hid := hinboxes.versions.distinct uid _ _ row taken hrow hfound
          (UInt64.toNat_inj.mp hsame)
        rw [hid, hfound] at hrow
        cases hrow
        exact htaken
    obtain ⟨found, hfoundMem, hfoundEq⟩ := exists_of_mem_forall₂ hpage.flip hrowTaken
    rw [hserved hchannel hrow haccessible] at hfoundEq
    cases hfoundEq
    exact hfoundMem

theorem rtChangedThreads_honest (hinboxes : Inboxes db) (hclean : Clean db uid)
    {actor : RealtimeActor} (hactor : actor.uid = uid) {query : RtChangedThreads} {now : UInt64}
    {delta : RtInboxDelta} (h : db.rtChangedThreads actor query now = .ok delta) :
    delta.inboxVersion = db.inboxHead uid ∧ HonestPage uid db query.since delta.channels := by
  subst hactor
  obtain ⟨_, hchecks⟩ := ite_error_eq_ok.mp h
  obtain ⟨_, _, hanswer⟩ := bind_eq_ok.mp hchecks
  rcases ite_eq_ok hanswer with ⟨_, hnone⟩ | ⟨_, hrows⟩
  · cases hnone
    refine ⟨rfl, fun shown hshown => (List.not_mem_nil hshown).elim, ?_⟩
    rintro _ _ _ _ _ _ _ ⟨shown, hshown, _⟩
    exact (List.not_mem_nil hshown).elim
  · obtain ⟨since, hsince, hcollect⟩ := bind_eq_ok.mp hrows
    obtain ⟨channels, hchannels, hdone⟩ := bind_eq_ok.mp hcollect
    cases hdone
    obtain ⟨_, rfl⟩ := sqlInteger_eq_ok.mp hsince
    exact ⟨rfl, honestPage_of_collected hinboxes hclean hchannels⟩

theorem Synced.page {page : List RtInboxChannel} (hsynced : Synced uid db inbox)
    (hpage : HonestPage uid db inbox.chatInboxState.cursor page)
    (h : ChatInbox.PageApplied inbox inbox' (db.inboxHead uid) page) : Synced uid db inbox' := by
  obtain ⟨hcursor, hversions, hreached⟩ := ChatInbox.le_pageCursor inbox.chatInboxState.cursor page
  have habove (shown : RtInboxChannel) (hshown : shown ∈ page) :
      inbox.chatInboxState.cursor.toNat < shown.inboxVersion.toNat ∧
        shown.inboxVersion.toNat ≤ (db.inboxHead uid).toNat :=
    ⟨UInt64.lt_iff_toNat_lt.mp (h.rows shown hshown).1,
      UInt64.le_iff_toNat_le.mp (h.rows shown hshown).2⟩
  obtain ⟨hput, hkept⟩ := ChatInbox.find?_foldl_putEntry h.ids
    (fun entry hentry shown hshown _ => UInt64.lt_iff_toNat_lt.mpr
      (Nat.lt_of_le_of_lt (hsynced.entries entry hentry) (habove shown hshown).1))
  refine ⟨?_, ?_, fun entry hentry => ?_, ?_⟩
  · rw [h.state]
    rcases hreached with heq | ⟨shown, hshown, heq⟩
    · rw [heq]
      exact hsynced.cursor
    · rw [← heq]
      exact (habove shown hshown).2
  · rw [h.state]
  · rw [h.state]
    rw [h.entries] at hentry
    rcases ChatInbox.mem_foldl_putEntry hentry with hold | ⟨shown, hshown, heq, _⟩
    · exact (hsynced.entries entry hold).trans hcursor
    · rw [heq]
      exact hversions shown hshown
  · intro channel hchannel hformat row hrow haccessible hle
    rw [h.state] at hle
    unfold ChatInbox.entry?
    rw [h.entries]
    by_cases hold : row.inboxVersion.toNat ≤ inbox.chatInboxState.cursor.toNat
    · -- the page has no row of the channel: it would be this one
      rw [hkept]
      · exact hsynced.shown channel hchannel hformat row hrow haccessible hold
      · intro shown hshown hid
        obtain ⟨other, _, otherRow, hfound, rfl⟩ := hpage.shown shown hshown
        have hsame : other.id = channel.id := (project_id other).symm.trans hid
        rw [hsame, hrow] at hfound
        cases hfound
        exact absurd (habove _ hshown).1 (Nat.not_lt.mpr hold)
    · have hin : served channel row ∈ page := by
        refine hpage.complete channel hchannel hformat row hrow haccessible (by omega) ?_
        rcases hreached with heq | ⟨shown, hshown, heq⟩
        · rw [heq] at hle
          exact absurd hle hold
        · exact ⟨shown, hshown, by rw [heq]; exact hle⟩
      obtain ⟨entry, hentry, hshows⟩ := hput _ hin
      refine ⟨entry, ?_, hshows⟩
      rw [← project_id channel]
      exact hentry

theorem Synced.observed {delta : RtInboxDelta} (hsynced : Synced uid db inbox)
    (hdelta : delta.inboxVersion = db.inboxHead uid)
    (h : ChatInbox.HeadObserved inbox inbox' delta) :
    Synced uid db inbox' := by
  obtain ⟨hentries, hstate⟩ := h
  have hcursor : inbox'.chatInboxState.cursor = inbox.chatInboxState.cursor := by rw [hstate]
  refine ⟨by rw [hcursor]; exact hsynced.cursor, ?_, ?_, ?_⟩
  · rw [hstate, hdelta]
  · rw [hcursor, hentries]
    exact hsynced.entries
  · unfold ChatInbox.entry?
    rw [hcursor, hentries]
    exact hsynced.shown

end

/-! ## Drains -/

section

variable {uid : List UInt8} {dbs : Nat → RtDatabase} {version : Except Client.Error UInt64}
  {fetch : Nat → RtChangedThreads → Except Client.Error RtInboxDelta}

section

variable (hserves : Serves (SettledStep uid) uid dbs version fetch)
include hserves

theorem Serves.linked_le
    (huser : uid.head? = some entityUser) {first last : Nat} (hle : first ≤ last)
    (hlinked : Linked uid (dbs first) inbox) : Linked uid (dbs last) inbox := by
  induction last, hle using Nat.le_induction with
  | base => exact hlinked
  | succ last _ ih => exact ih.steps huser (hserves.moves last)

variable {result : Except Client.Error (ChatInboxState × Nat)}

/-- The stored version never exceeds the server's, so the copy is not thrown away. -/
theorem Serves.drainInboxScope_cases (hsynced : Synced uid (dbs 0) inbox)
    (h : ChatInbox.drainInboxScope version fetch inbox = (result, inbox')) :
    (∃ error, result = .error error ∧ inbox' = inbox) ∨
      ∃ remoteHead, ChatInbox.drainFrom fetch remoteHead inbox = (result, inbox') := by
  unfold ChatInbox.drainInboxScope at h
  split at h
  · cases h
    exact .inl ⟨_, rfl, rfl⟩
  · rename_i remoteHead
    split at h
    · cases h
      exact .inl ⟨_, rfl, rfl⟩
    · split at h
      · rename_i hrolled
        obtain ⟨actor, now, rfl, hversion⟩ := hserves.version remoteHead rfl
        obtain ⟨_, _, hhead⟩ := bind_eq_ok.mp hversion
        cases hhead
        have hhead := hsynced.head
        have hcursor := hsynced.cursor
        rw [UInt64.lt_iff_toNat_lt, UInt64.lt_iff_toNat_lt] at hrolled
        omega
      · exact .inr ⟨remoteHead, h⟩

theorem Serves.linked_drained (huser : uid.head? = some entityUser)
    (hlinked : Linked uid (dbs 0) inbox)
    (h : ChatInbox.drainInboxScope version fetch inbox = (result, inbox')) :
    Linked uid (dbs (chatInboxPages + 1)) inbox' := by
  rcases hserves.drainInboxScope_cases hlinked.synced h with ⟨_, _, rfl⟩ | ⟨remoteHead, hdrain⟩
  · exact hserves.linked_le huser (Nat.zero_le _) hlinked
  · obtain ⟨pages, pagesResult, hpages, _, hcount⟩ := ChatInbox.drainFrom_cases hdrain
    obtain ⟨last, hlast, hdone⟩ := ChatInbox.drainPages_invariant
      (P := fun page inbox => Linked uid (dbs (page + 1)) inbox)
      (fun page inbox hpage => hpage.steps huser (hserves.moves (page + 1)))
      (fun page maximum inbox inbox' delta hpage hfetch happlied _ => by
        obtain ⟨hclean, actor, now, hactor, hanswer⟩ := hserves.fetch page _ delta hfetch
        obtain ⟨hversion, hhonest⟩ := rtChangedThreads_honest hpage.inboxes hclean hactor hanswer
        rw [hversion] at happlied
        exact ⟨hpage.inboxes, hpage.synced.page hhonest happlied⟩)
      (fun page maximum inbox inbox' delta hpage hfetch hobserved => by
        obtain ⟨hclean, actor, now, hactor, hanswer⟩ := hserves.fetch page _ delta hfetch
        obtain ⟨hversion, _⟩ := rtChangedThreads_honest hpage.inboxes hclean hactor hanswer
        exact ⟨hpage.inboxes, hpage.synced.observed hversion hobserved⟩)
      (hlinked.steps huser (hserves.moves 0)) hpages
    refine hserves.linked_le huser ?_ hdone
    rcases hcount with rfl | ⟨rfl, _⟩ <;> omega

end

theorem inboxes_settled (hinboxes : Inboxes db) (h : ReflTransGen (SettledStep uid) db db') :
    Inboxes db' := by
  induction h with
  | refl => exact hinboxes
  | tail _ hstep ih => exact ih.step hstep.1

theorem Run.inboxes (h : Run (SettledStep uid) uid db inbox) : Inboxes db := by
  induction h with
  | start hstart => exact Inboxes.run hstart ReflTransGen.refl
  | server _ hstep ih => exact ih.step hstep.1
  | @drain dbs _ _ _ _ _ _ hserves _ ih =>
    have hall (n : Nat) : Inboxes (dbs n) := by
      induction n with
      | zero => exact ih
      | succ n hn => exact inboxes_settled hn (hserves.moves n)
    exact hall _

theorem Run.linked (h : Run (SettledStep uid) uid db inbox) (huser : uid.head? = some entityUser) :
    Linked uid db inbox := by
  induction h with
  | @start db hstart =>
    refine ⟨Inboxes.run hstart ReflTransGen.refl, Nat.zero_le _, Nat.zero_le _, ?_, ?_⟩
    · exact fun entry hentry => (List.not_mem_nil hentry).elim
    · intro channel hchannel
      rw [hstart.channels] at hchannel
      exact (List.not_mem_nil hchannel).elim
  | server _ hstep ih => exact ih.step huser hstep
  | drain _ hserves hdrain ih => exact hserves.linked_drained huser ih hdrain

end

/-- After a drain of a clean server that says it is done, the client shows what the user may
    read. -/
theorem drained_shows_readable {uid : List UInt8} {db : RtDatabase} {inbox inbox' : ChatInbox}
    (hrun : Run (SettledStep uid) uid db inbox) (hclean : Clean db uid)
    {version : Except Client.Error UInt64}
    {fetch : Nat → RtChangedThreads → Except Client.Error RtInboxDelta}
    (hversion : HonestVersion uid db version)
    (hfetch : ∀ page query, HonestAnswer uid db query (fetch page query))
    {state : ChatInboxState} {applied : Nat}
    (hdrain : ChatInbox.drainInboxScope version fetch inbox = (.ok (state, applied), inbox'))
    (hdrained : ChatInbox.scopeDrained state = true) : ShowsReadable uid db inbox' := by
  intro channel hchannel hformat hreadable
  have huser : uid.head? = some entityUser := by
    obtain ⟨stored, hstored, _⟩ := hclean
    exact hrun.inboxes.exact.users uid stored hstored
  have hserves : Serves (SettledStep uid) uid (fun _ => db) version fetch :=
    ⟨fun _ => ReflTransGen.refl, hversion, hfetch⟩
  have hbefore := hrun.linked huser
  have hafter := hserves.linked_drained huser hbefore hdrain
  rcases hserves.drainInboxScope_cases hbefore.synced hdrain with ⟨_, herror, _⟩ | ⟨head, hfrom⟩
  · cases herror
  · have hheads (page : Nat) (query : RtChangedThreads) (delta : RtInboxDelta)
        (hdelta : fetch page query = .ok delta) : delta.inboxVersion = db.inboxHead uid := by
      obtain ⟨_, actor, now, hactor, hanswer⟩ := hfetch page query delta hdelta
      exact (rtChangedThreads_honest hbefore.inboxes hclean hactor hanswer).1
    obtain ⟨rfl, hhead⟩ := ChatInbox.drainFrom_head hheads hfrom hdrained
    have hcursor : (db.inboxHead uid).toNat ≤ inbox'.chatInboxState.cursor.toNat := by
      unfold ChatInbox.scopeDrained at hdrained
      rw [Bool.and_eq_true, decide_eq_true_eq, hhead] at hdrained
      exact UInt64.le_iff_toNat_le.mp hdrained.2
    obtain ⟨row, hrow, haccessible⟩ :=
      accessible_eq_true.mp ((hbefore.inboxes.exact.clean hclean hchannel).mpr hreadable)
    have hle := hbefore.inboxes.versions.le_head uid channel.id row hrow
    obtain ⟨entry, hentry, hshows⟩ := hafter.synced.shown channel hchannel hformat row hrow
      haccessible (hle.trans hcursor)
    have hid := (Prod.mk.inj (userChannel?_place hrow)).2
    refine ⟨row, entry, served channel row, hrow, inboxChannel_of_readable ?_ hreadable, hentry,
      hshows.inboxVersion, hshows.metadata, ?_⟩
    · exact hbefore.inboxes.log.channelIds.find?_eq_some.mpr ⟨hchannel, hid.symm⟩
    · rw [hshows.readThrough]
      exact UInt64.le_refl _

end

/-! ## A message that is missed -/

namespace Sample

open RtSample

def bob : List UInt8 := (LinkSample.user 2).bytes

def bobDevice : List UInt8 := (LinkSample.device 11).bytes

def bobActor : RealtimeActor := ⟨bob, bobDevice, 1000000⟩

/-- A team of two owners. -/
def pair : RtDatabase :=
  { start with
    users := [alice, bob]
    devices := [⟨device, alice, true, 3, 0, none⟩, ⟨bobDevice, bob, true, 3, 0, none⟩]
    teamMembers := [owner alice, owner bob] }

def opened : RtDatabase := after pair (pair.rtCreateChannel aliceActor newChannel 5000)

def known : RtDatabase := after opened (opened.rtReconcileInbox bobActor 5500)

/-- A message is sent to both. -/
def told : RtDatabase := after known (known.rtSend aliceActor (message 1) 6000)

/-- Instead, the second owner is taken from the roster before the message is sent. -/
def left : RtDatabase := known.deleteMember (owner bob)

def missed : RtDatabase := after left (left.rtSend aliceActor (message 1) 6000)

/-- They come back and their inbox is reconciled. -/
def returned : RtDatabase := missed.insertMember (owner bob)

def settled : RtDatabase := after returned (returned.rtReconcileInbox bobActor 7000)

/-- The answers of a server to a client of the second owner. -/
def version (db : RtDatabase) : Except Client.Error UInt64 :=
  (db.rtInboxVersion bobActor 8000).mapError fun _ => .chatLimit "server"

def fetch (db : RtDatabase) (_ : Nat) (query : RtChangedThreads) :
    Except Client.Error RtInboxDelta :=
  (db.rtChangedThreads bobActor query 8000).mapError fun _ => .chatLimit "server"

def drained (db : RtDatabase) (inbox : ChatInbox) :
    Except Client.Error (ChatInboxState × Nat) × ChatInbox :=
  ChatInbox.drainInboxScope (version db) (fetch db) inbox

def first : ChatInbox := (drained known .empty).2

def second : ChatInbox := (drained told first).2

def last : ChatInbox := (drained settled first).2

theorem honest_version (db : RtDatabase) : HonestVersion bob db (version db) :=
  fun _ hhead => ⟨bobActor, 8000, rfl, mapError_eq_ok.mp hhead⟩

theorem honest_fetch (hclean : Clean db bob) (page : Nat) (query : RtChangedThreads) :
    HonestAnswer bob db query (fetch db page query) :=
  fun _ hdelta => ⟨hclean, bobActor, 8000, rfl, mapError_eq_ok.mp hdelta⟩

theorem known_clean : Clean known bob := clean_of_state (by decide +kernel)

theorem pair_run {step : RtDatabase → RtDatabase → Prop} (hopened : step pair opened)
    (hknown : step opened known) : Run step bob known .empty :=
  ((Run.start ⟨rfl, rfl, rfl, rfl, rfl⟩).server hopened).server hknown

theorem known_steps : SingleStep pair opened ∧ SingleStep opened known := by
  obtain ⟨_, hcreate⟩ : ∃ value,
      pair.rtCreateChannel aliceActor newChannel 5000 = .ok (value, opened) :=
    eq_ok_after (by decide +kernel)
  obtain ⟨_, hreconcile⟩ : ∃ value, opened.rtReconcileInbox bobActor 5500 = .ok (value, known) :=
    eq_ok_after (by decide +kernel)
  exact ⟨⟨.create hcreate, singleEntry_of_nodup (by decide)⟩,
    ⟨.reconcile hreconcile, singleEntry_of_nodup (by decide +kernel)⟩⟩

theorem readersStamped_of_messages {uid : List UInt8} (h : db'.messages = db.messages) :
    ReadersStamped uid db db' := by
  intro row hmessages
  rw [h] at hmessages
  exact absurd (congrArg List.length hmessages) (by simp)

theorem drained_eq (db : RtDatabase) (inbox : ChatInbox)
    (h : (drained db inbox).1.toOption.any (fun result => ChatInbox.scopeDrained result.1) = true) :
    ∃ state applied, drained db inbox = (.ok (state, applied), (drained db inbox).2) ∧
      ChatInbox.scopeDrained state = true := by
  cases hresult : (drained db inbox).1 with
  | error error =>
    rw [hresult] at h
    cases h
  | ok pair =>
    rw [hresult] at h
    exact ⟨pair.1, pair.2, Prod.ext hresult rfl, h⟩

/-- The second owner has drained the inbox once. -/
theorem first_run {step : RtDatabase → RtDatabase → Prop} (h : Run step bob known .empty) :
    Run step bob known first :=
  @Run.drain step bob (fun _ => known) _ _ _ _ _ h
    ⟨fun _ => ReflTransGen.refl, honest_version known, honest_fetch known_clean⟩
    (Prod.mk.eta (p := drained known .empty)).symm

/-- The second drain shows the message that was sent after the first one. -/
theorem told_shows_readable :
    (second.entry? channelId).map (·.metadata.lastMessage.isSome) = some true ∧
    ∃ state applied, drained told first = (.ok (state, applied), second) ∧
      ChatInbox.scopeDrained state = true ∧ ShowsReadable bob told second := by
  have hclean : Clean told bob := clean_of_state (by decide +kernel)
  obtain ⟨_, hsend⟩ : ∃ value, known.rtSend aliceActor (message 1) 6000 = .ok (value, told) :=
    eq_ok_after (by decide +kernel)
  have hrun : Run (SettledStep bob) bob told first :=
    (first_run (pair_run ⟨known_steps.1, readersStamped_of_messages (by decide +kernel)⟩
      ⟨known_steps.2, readersStamped_of_messages (by decide +kernel)⟩)).server
      ⟨⟨.send hsend, singleEntry_of_nodup (by decide +kernel)⟩, fun _ _ channel hchannel _ _ =>
        readable_of_owner (by decide +kernel) channel hchannel⟩
  obtain ⟨state, applied, hdrain, hdrained⟩ := drained_eq told first (by decide +kernel)
  exact ⟨by decide +kernel, state, applied, hdrain, hdrained, drained_shows_readable hrun hclean
    (honest_version told) (honest_fetch hclean) hdrain hdrained⟩

/-- The last drain ends well, and the client does not show the message that was sent while the
    second owner was away. -/
theorem stale_drained : Run SingleStep bob settled first ∧ Clean settled bob ∧
    HonestVersion bob settled (version settled) ∧
    (∀ page query, HonestAnswer bob settled query (fetch settled page query)) ∧
    (∃ state applied, ChatInbox.drainInboxScope (version settled) (fetch settled) first =
      (.ok (state, applied), last) ∧ ChatInbox.scopeDrained state = true) ∧
    ¬ ShowsReadable bob settled last := by
  have hfirst : Run SingleStep bob known first :=
    first_run (pair_run known_steps.1 known_steps.2)
  obtain ⟨_, hsend⟩ : ∃ value, left.rtSend aliceActor (message 1) 6000 = .ok (value, missed) :=
    eq_ok_after (by decide +kernel)
  obtain ⟨_, hreconcile⟩ : ∃ value,
      returned.rtReconcileInbox bobActor 7000 = .ok (value, settled) :=
    eq_ok_after (by decide +kernel)
  have hmember : owner bob ∈ known.teamMembers := by decide +kernel
  have hrun : Run SingleStep bob settled first :=
    (((hfirst.server ⟨.deleteMember hmember, singleEntry_of_nodup (by decide +kernel)⟩).server
      ⟨.send hsend, singleEntry_of_nodup (by decide +kernel)⟩).server
      ⟨.insertMember (owner bob), singleEntry_of_nodup (by decide +kernel)⟩).server
      ⟨.reconcile hreconcile, singleEntry_of_nodup (by decide +kernel)⟩
  have hclean : Clean settled bob := clean_of_state (by decide +kernel)
  refine ⟨hrun, hclean, honest_version settled, honest_fetch hclean,
    drained_eq settled first (by decide +kernel), fun hshows => ?_⟩
  have hchannel : settled.channels.any (fun channel => channel.id = channelId ∧
      channel.format = 1) = true := by
    decide +kernel
  obtain ⟨channel, hmem, hchannel⟩ := List.any_eq_true.mp hchannel
  obtain ⟨hid, hformat⟩ := of_decide_eq_true hchannel
  obtain ⟨row, entry, now, hrow, hnow, hentry, _, hmetadata, _⟩ :=
    hshows channel hmem hformat (readable_of_owner (by decide +kernel) channel hmem)
  rw [hid] at hrow hentry
  have hlocal : (last.entry? channelId).map (·.metadata.lastMessage.isSome) = some false := by
    decide +kernel
  have hserved : (settled.userChannel? bob channelId).map (fun row =>
      (settled.inboxChannel bob row).map (·.map (·.metadata.lastMessage.isSome))) =
        some (.ok (some true)) := by
    decide +kernel
  rw [hentry] at hlocal
  rw [hrow] at hserved
  simp only [Option.map_some, hnow] at hlocal hserved
  rw [hmetadata] at hlocal
  have hsome : now.metadata.lastMessage.isSome = true := by
    simpa [Except.map] using hserved
  rw [hsome] at hlocal
  cases hlocal

end Sample

end Foks.Chat
