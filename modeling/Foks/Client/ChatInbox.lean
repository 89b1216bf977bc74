/-
  The client's copy of its chat inbox (`foks-client`, `realtime/inbox.rs`, `drain_inbox_scope`, and
  `foks-client-db`, `soft.rs`, the tables `chat_inbox_state` and `chat_inbox_channels`).

  The copy of one account has a cursor: the greatest version of a page that was applied. A drain
  asks for rows with a version above the cursor, page by page, until the cursor is at the head that
  the server reported. Each page is committed on its own, so a drain that fails later leaves what it
  has applied. The server's answers are given by a function, the answer to each page by itself, so
  that the server may change between two pages.
-/
import Foks.Client.Error
import Foks.Lib.Table
import Foks.Proto.Realtime

namespace Foks.Client

open Foks.Lib Foks.Proto

def defaultPage : UInt64 := 100

def chatInboxRows : Nat := 1000

def chatInboxPages : Nat := 64

/-- The `CHECK` on `chat_inbox_channels.metadata`. -/
def chatMetadataBytes : Nat := 32768

structure ChatInboxState where
  cursor : UInt64
  head : UInt64
  degraded : Bool
  deriving DecidableEq

/-- `ChatInboxState::default`. -/
def ChatInboxState.initial : ChatInboxState := ⟨0, 0, false⟩

structure ChatInboxEntry where
  metadata : RtChannelMetadata
  inboxVersion : UInt64
  readThrough : UInt64
  pendingRead : Option UInt64
  hidden : Bool
  muted : Bool
  deriving DecidableEq

/-- The rows of one account. -/
structure ChatInbox where
  state : Option ChatInboxState
  entries : List ChatInboxEntry
  deriving DecidableEq

def ChatInboxEntry.id (entry : ChatInboxEntry) : RtChannelId := entry.metadata.id

namespace ChatInbox

/-- An account before its first drain. -/
def empty : ChatInbox := ⟨none, []⟩

def chatInboxState (inbox : ChatInbox) : ChatInboxState := inbox.state.getD .initial

def entry? (inbox : ChatInbox) (id : RtChannelId) : Option ChatInboxEntry :=
  inbox.entries.find? fun entry => entry.id = id

/-- `sqlite_integer`. -/
def sqliteInteger (field : String) (value : UInt64) : Except Error UInt64 :=
  if value.toNat < 2 ^ 63 then .ok value else .error (.integerOutOfRange field)

/-- A read that is still to be confirmed is dropped when the server is as far. -/
def pendingAfter (pending : Option UInt64) (readThrough : UInt64) : Option UInt64 :=
  pending.filter fun sequence => readThrough < sequence

/-- The entry of a page row. -/
def pageEntry (channel : RtInboxChannel) (pendingRead : Option UInt64) : ChatInboxEntry :=
  ⟨channel.metadata, channel.inboxVersion, channel.readThrough, pendingRead, channel.hidden,
    channel.muted⟩

/-- The `INSERT … ON CONFLICT DO UPDATE … WHERE` of a page row: an entry is replaced only by a
    greater version. -/
def putEntry (entries : List ChatInboxEntry) (channel : RtInboxChannel) : List ChatInboxEntry :=
  match entries.find? fun entry => entry.id = channel.metadata.id with
  | none => entries ++ [pageEntry channel none]
  | some old =>
    if old.inboxVersion < channel.inboxVersion then
      upsertRow ChatInboxEntry.id entries
        (pageEntry channel (pendingAfter old.pendingRead channel.readThrough))
    else entries

/-- The read pointer is not ahead of the last message. -/
def readIsBounded (channel : RtInboxChannel) : Bool :=
  match channel.metadata.lastMessage with
  | none => channel.readThrough = 0
  | some last => channel.readThrough ≤ last.sequence

/-- What a page row has to be, next to the rows of the page before it. -/
def fitsPage (cursor head : UInt64) (before : List RtInboxChannel) (channel : RtInboxChannel) :
    Bool :=
  channel.metadata.app = .chat && channel.metadata.id ≠ .replicate 16 0 &&
    channel.metadata.team.entity.bytes.length = 33 && cursor < channel.inboxVersion &&
    channel.inboxVersion ≤ head &&
    (before.all fun other => other.metadata.id ≠ channel.metadata.id) &&
    (before.all fun other => other.inboxVersion ≠ channel.inboxVersion) && readIsBounded channel

/-- One row of a page, after the rows `before`. -/
def applyRow (cursor head : UInt64) (before : List RtInboxChannel) (channel : RtInboxChannel)
    (entries : List ChatInboxEntry) : Except Error (List ChatInboxEntry) := do
  let version ← sqliteInteger "chat inbox row version" channel.inboxVersion
  let _ ← sqliteInteger "chat read pointer" channel.readThrough
  if !fitsPage cursor head before channel then
    .error (.invalidChatInbox "invalid inbox page ordering or identity")
  else if entries.any fun entry =>
      entry.inboxVersion = version && entry.id ≠ channel.metadata.id then
    .error (.invalidChatInbox "inbox version reused")
  else do
    let bytes ← channel.metadata.encoded.mapError fun _ =>
      .invalidChatInbox "invalid channel metadata"
    if chatMetadataBytes < bytes.length then .error .constraint
    else .ok (putEntry entries channel)

def applyRows (cursor head : UInt64) :
    List RtInboxChannel → List RtInboxChannel → List ChatInboxEntry →
      Except Error (List ChatInboxEntry)
  | _, [], entries => .ok entries
  | before, channel :: channels, entries => do
    let entries ← applyRow cursor head before channel entries
    applyRows cursor head (before ++ [channel]) channels entries

/-- The greatest version of a page, or the cursor. -/
def pageCursor (cursor : UInt64) (channels : List RtInboxChannel) : UInt64 :=
  channels.foldl (fun cursor channel => max cursor channel.inboxVersion) cursor

def applyChatInboxPage (inbox : ChatInbox) (head : UInt64) (channels : List RtInboxChannel) :
    Except Error (ChatInboxState × ChatInbox) := do
  let head ← sqliteInteger "chat inbox head" head
  let state := inbox.chatInboxState
  if head < state.cursor ∨ head < state.head then
    .error (.invalidChatInbox "inbox head rolled back")
  else do
    let entries ← applyRows state.cursor head [] channels inbox.entries
    let cursor := pageCursor state.cursor channels
    if !channels.isEmpty ∧ cursor = state.cursor then
      .error (.invalidChatInbox "inbox page made no progress")
    else .ok (⟨cursor, head, false⟩, ⟨some ⟨cursor, head, false⟩, entries⟩)

def observeChatInboxHead (inbox : ChatInbox) (head : UInt64) (degraded : Bool) :
    Except Error (ChatInboxState × ChatInbox) := do
  let state := inbox.chatInboxState
  if head < state.cursor ∨ head < state.head then
    .error (.invalidChatInbox "inbox head rolled back")
  else do
    let head ← sqliteInteger "chat inbox head" head
    .ok (⟨state.cursor, head, degraded⟩, ⟨some ⟨state.cursor, head, degraded⟩, inbox.entries⟩)

/-- The rows of the channels go with the state, by the foreign key. -/
def resetChatInbox (_ : ChatInbox) : ChatInbox := empty

/-! ## Draining -/

/-- `scope_drained`. -/
def scopeDrained (state : ChatInboxState) : Bool := !state.degraded && state.head ≤ state.cursor

/-- The checks on an answer. -/
def isInvalidDelta (state : ChatInboxState) (maximum : UInt64) (delta : RtInboxDelta) : Bool :=
  delta.app ≠ .chat || 2 ^ 63 ≤ delta.inboxVersion.toNat || delta.inboxVersion < state.cursor ||
    chatInboxRows < delta.channels.length || maximum.toNat < delta.channels.length

/-- The loop over the pages, with its state, the number of rows applied and the stored inbox. `page`
    numbers the requests. -/
def drainPages (fetch : Nat → RtChangedThreads → Except Error RtInboxDelta) :
    Nat → Nat → UInt64 → ChatInboxState → Nat → ChatInbox →
      Except Error (ChatInboxState × Nat) × ChatInbox
  | 0, _, _, state, applied, inbox => (.ok (state, applied), inbox)
  | pages + 1, page, maximum, state, applied, inbox =>
    match fetch page ⟨.chat, state.cursor, maximum⟩ with
    | .error error => (.error error, inbox)
    | .ok delta =>
      if isInvalidDelta state maximum delta then
        (.error (.chatIntegrity "invalid inbox delta identity or bounds"), inbox)
      else if delta.channels.isEmpty then
        if state.cursor < delta.inboxVersion ∧ maximum.toNat < chatInboxRows then
          drainPages fetch pages (page + 1) (UInt64.ofNat chatInboxRows) state applied inbox
        else
          match inbox.observeChatInboxHead delta.inboxVersion
            (state.cursor < delta.inboxVersion) with
          | .error error => (.error error, inbox)
          | .ok (state, inbox) => (.ok (state, applied), inbox)
      else
        match inbox.applyChatInboxPage delta.inboxVersion delta.channels with
        | .error error => (.error error, inbox)
        | .ok (state, inbox) =>
          if 2 ^ 64 ≤ applied + delta.channels.length then
            (.error (.chatLimit "inbox apply count overflow"), inbox)
          else if state.head ≤ state.cursor then
            (.ok (state, applied + delta.channels.length), inbox)
          else drainPages fetch pages (page + 1) defaultPage state
            (applied + delta.channels.length) inbox

/-- The last check of a drain. -/
def checkDrained (result : Except Error (ChatInboxState × Nat)) :
    Except Error (ChatInboxState × Nat) := do
  let (state, applied) ← result
  if state.cursor < state.head ∧ !state.degraded then .error (.chatLimit "inbox pagination limit")
  else .ok (state, applied)

/-- The pages of a drain from the head that the server reports. -/
def drainFrom (fetch : Nat → RtChangedThreads → Except Error RtInboxDelta) (remoteHead : UInt64)
    (inbox : ChatInbox) : Except Error (ChatInboxState × Nat) × ChatInbox :=
  let state := inbox.chatInboxState
  let pages := if state.degraded ∧ remoteHead = state.head then 0 else chatInboxPages
  let (result, inbox) := drainPages fetch pages 0 defaultPage state 0 inbox
  (checkDrained result, inbox)

def drainInboxScope (version : Except Error UInt64)
    (fetch : Nat → RtChangedThreads → Except Error RtInboxDelta) (inbox : ChatInbox) :
    Except Error (ChatInboxState × Nat) × ChatInbox :=
  match version with
  | .error error => (.error error, inbox)
  | .ok remoteHead =>
    if 2 ^ 63 ≤ remoteHead.toNat then (.error (.chatIntegrity "inbox version overflow"), inbox)
    else if remoteHead < inbox.chatInboxState.head ∨ remoteHead < inbox.chatInboxState.cursor then
      drainFrom fetch remoteHead inbox.resetChatInbox
    else drainFrom fetch remoteHead inbox

/-! ## What a page does -/

theorem sqliteInteger_eq_ok {field : String} {value stored : UInt64}
    (h : sqliteInteger field value = .ok stored) : stored = value := by
  rcases ite_eq_ok h with ⟨_, h⟩ | ⟨_, h⟩
  · exact (Except.ok.inj h).symm
  · cases h

variable {channel : RtInboxChannel} {entries entries' : List ChatInboxEntry}
  {channels before : List RtInboxChannel}
  {inbox inbox' : ChatInbox} {state : ChatInboxState} {head cursor : UInt64}

theorem applyRow_eq_ok (h : applyRow cursor head before channel entries = .ok entries') :
    cursor < channel.inboxVersion ∧ channel.inboxVersion ≤ head ∧
      (∀ other ∈ before, other.metadata.id ≠ channel.metadata.id) ∧
      entries' = putEntry entries channel := by
  obtain ⟨_, _, h⟩ := bind_eq_ok.mp h
  obtain ⟨_, _, h⟩ := bind_eq_ok.mp h
  obtain ⟨hfits, h⟩ := ite_error_eq_ok.mp h
  obtain ⟨_, h⟩ := ite_error_eq_ok.mp h
  obtain ⟨_, _, h⟩ := bind_eq_ok.mp h
  obtain ⟨_, h⟩ := ite_error_eq_ok.mp h
  simp only [fitsPage, Bool.and_eq_true, decide_eq_true_eq, List.all_eq_true, Bool.not_eq_true',
    Bool.not_eq_false] at hfits
  obtain ⟨⟨⟨⟨⟨_, hcursor⟩, hhead⟩, hids⟩, _⟩, _⟩ := hfits
  exact ⟨hcursor, hhead, hids, (Except.ok.inj h).symm⟩

/-- The rows of a page lie between the cursor and the head and are about different channels. -/
theorem applyRows_eq_ok (h : applyRows cursor head before channels entries = .ok entries') :
    (∀ channel ∈ channels, cursor < channel.inboxVersion ∧ channel.inboxVersion ≤ head ∧
      ∀ other ∈ before, other.metadata.id ≠ channel.metadata.id) ∧
    channels.Pairwise (fun a b => a.metadata.id ≠ b.metadata.id) ∧
    entries' = channels.foldl putEntry entries := by
  induction channels generalizing before entries with
  | nil =>
    cases h
    exact ⟨fun _ hchannel => (List.not_mem_nil hchannel).elim, List.Pairwise.nil, rfl⟩
  | cons first channels ih =>
    obtain ⟨mid, hmid, h⟩ := bind_eq_ok.mp h
    obtain ⟨hcursor, hhead, hids, rfl⟩ := applyRow_eq_ok hmid
    obtain ⟨hall, hpairwise, hentries⟩ := ih h
    refine ⟨fun channel hchannel => ?_, List.pairwise_cons.mpr ⟨fun other hother => ?_, hpairwise⟩,
      hentries⟩
    · rcases List.mem_cons.mp hchannel with rfl | hchannel
      · exact ⟨hcursor, hhead, hids⟩
      · obtain ⟨hcursor', hhead', hids'⟩ := hall channel hchannel
        exact ⟨hcursor', hhead', fun other hother => hids' other (List.mem_append_left _ hother)⟩
    · exact (hall other hother).2.2 first (List.mem_append_right _ List.mem_cons_self)

/-- The entry is what a page row says. -/
structure Shows (entry : ChatInboxEntry) (channel : RtInboxChannel) : Prop where
  metadata : entry.metadata = channel.metadata
  inboxVersion : entry.inboxVersion = channel.inboxVersion
  readThrough : entry.readThrough = channel.readThrough

theorem shows_pageEntry (channel : RtInboxChannel) (pendingRead : Option UInt64) :
    Shows (pageEntry channel pendingRead) channel := ⟨rfl, rfl, rfl⟩

theorem find?_putEntry_of_ne {id : RtChannelId} (hne : channel.metadata.id ≠ id) :
    (putEntry entries channel).find? (fun entry => entry.id = id) =
      entries.find? fun entry => entry.id = id := by
  have hnew (pendingRead : Option UInt64) : (pageEntry channel pendingRead).id ≠ id := hne
  unfold putEntry
  split
  · rw [List.find?_append]
    simp [hnew]
  · split
    · rw [find?_upsertRow, if_neg (hnew _)]
    · rfl

theorem find?_putEntry_self (hold : ∀ entry ∈ entries, entry.id = channel.metadata.id →
      entry.inboxVersion < channel.inboxVersion) :
    ∃ entry, (putEntry entries channel).find? (fun entry => entry.id = channel.metadata.id) =
      some entry ∧ Shows entry channel := by
  have hnew (pendingRead : Option UInt64) :
      (pageEntry channel pendingRead).id = channel.metadata.id := rfl
  unfold putEntry
  split
  · rename_i hnone
    refine ⟨pageEntry channel none, ?_, shows_pageEntry channel none⟩
    rw [List.find?_append, hnone]
    simp [hnew]
  · rename_i old hfound
    have hid : old.id = channel.metadata.id := by simpa using List.find?_some hfound
    rw [if_pos (hold old (List.mem_of_find?_eq_some hfound) hid)]
    refine ⟨pageEntry channel (pendingAfter old.pendingRead channel.readThrough), ?_,
      shows_pageEntry channel _⟩
    rw [find?_upsertRow, if_pos (hnew _)]

theorem mem_putEntry {entry : ChatInboxEntry} (h : entry ∈ putEntry entries channel) :
    entry ∈ entries ∨
      entry.inboxVersion = channel.inboxVersion ∧ entry.id = channel.metadata.id := by
  unfold putEntry at h
  split at h
  · rcases List.mem_append.mp h with h | h
    · exact .inl h
    · rw [List.mem_singleton.mp h]
      exact .inr ⟨rfl, rfl⟩
  · split at h
    · rcases mem_upsertRow.mp h with ⟨h, _⟩ | rfl
      · exact .inl h
      · exact .inr ⟨rfl, rfl⟩
    · exact .inl h

/-- After a page the channels of its rows are as the page says, and the others as before. -/
theorem find?_foldl_putEntry
    (hpairwise : channels.Pairwise fun a b => a.metadata.id ≠ b.metadata.id)
    (hold : ∀ entry ∈ entries, ∀ channel ∈ channels, entry.id = channel.metadata.id →
      entry.inboxVersion < channel.inboxVersion) :
    (∀ channel ∈ channels, ∃ entry,
      (channels.foldl putEntry entries).find? (fun entry => entry.id = channel.metadata.id) =
        some entry ∧ Shows entry channel) ∧
    ∀ id, (∀ channel ∈ channels, channel.metadata.id ≠ id) →
      (channels.foldl putEntry entries).find? (fun entry => entry.id = id) =
        entries.find? fun entry => entry.id = id := by
  induction channels generalizing entries with
  | nil => exact ⟨fun _ hchannel => (List.not_mem_nil hchannel).elim, fun _ _ => rfl⟩
  | cons first channels ih =>
    obtain ⟨hfirst, hpairwise⟩ := List.pairwise_cons.mp hpairwise
    obtain ⟨hshown, hothers⟩ := ih hpairwise
      (fun entry hentry channel hchannel hid => by
        rcases mem_putEntry hentry with hentry | ⟨_, hfirstId⟩
        · exact hold entry hentry channel (List.mem_cons_of_mem _ hchannel) hid
        · exact absurd (hfirstId.symm.trans hid) (hfirst channel hchannel))
    refine ⟨fun channel hchannel => ?_, fun id hnone => ?_⟩
    · rcases List.mem_cons.mp hchannel with rfl | hchannel
      · -- no later row of the page is about the same channel
        rw [List.foldl_cons, hothers _ fun other hother => (hfirst other hother).symm]
        exact find?_putEntry_self fun entry hentry => hold entry hentry channel List.mem_cons_self
      · exact hshown channel hchannel
    · rw [List.foldl_cons, hothers id fun channel hchannel =>
        hnone channel (List.mem_cons_of_mem _ hchannel)]
      exact find?_putEntry_of_ne (hnone first List.mem_cons_self)

theorem mem_foldl_putEntry {entry : ChatInboxEntry} (h : entry ∈ channels.foldl putEntry entries) :
    entry ∈ entries ∨ ∃ channel ∈ channels, entry.inboxVersion = channel.inboxVersion ∧
      entry.id = channel.metadata.id := by
  induction channels generalizing entries with
  | nil => exact .inl h
  | cons first channels ih =>
    rcases ih h with h | ⟨channel, hchannel, hentry⟩
    · rcases mem_putEntry h with h | hentry
      · exact .inl h
      · exact .inr ⟨first, List.mem_cons_self, hentry⟩
    · exact .inr ⟨channel, List.mem_cons_of_mem _ hchannel, hentry⟩

theorem le_pageCursor (cursor : UInt64) (channels : List RtInboxChannel) :
    cursor.toNat ≤ (pageCursor cursor channels).toNat ∧
      (∀ channel ∈ channels,
        channel.inboxVersion.toNat ≤ (pageCursor cursor channels).toNat) ∧
      (pageCursor cursor channels = cursor ∨
        ∃ channel ∈ channels, channel.inboxVersion = pageCursor cursor channels) := by
  unfold pageCursor
  induction channels generalizing cursor with
  | nil => exact ⟨Nat.le_refl _, fun _ hchannel => (List.not_mem_nil hchannel).elim, .inl rfl⟩
  | cons first channels ih =>
    obtain ⟨hcursor, hall, hreached⟩ := ih (max cursor first.inboxVersion)
    have hmax := toNat_max cursor first.inboxVersion
    rw [List.foldl_cons]
    refine ⟨by omega, fun channel hchannel => ?_, ?_⟩
    · rcases List.mem_cons.mp hchannel with rfl | hchannel
      · omega
      · exact hall channel hchannel
    · rcases hreached with heq | ⟨channel, hchannel, heq⟩
      · have hchoice : max cursor first.inboxVersion = cursor ∨
            max cursor first.inboxVersion = first.inboxVersion := by
          rw [← UInt64.toNat_inj, ← UInt64.toNat_inj]
          omega
        rcases hchoice with hchoice | hchoice
        · exact .inl (heq.trans hchoice)
        · exact .inr ⟨first, List.mem_cons_self, (heq.trans hchoice).symm⟩
      · exact .inr ⟨channel, List.mem_cons_of_mem _ hchannel, heq⟩

/-- A page was applied to an inbox. -/
structure PageApplied (inbox inbox' : ChatInbox) (head : UInt64) (channels : List RtInboxChannel) :
    Prop where
  rows : ∀ channel ∈ channels,
    inbox.chatInboxState.cursor < channel.inboxVersion ∧ channel.inboxVersion ≤ head
  ids : channels.Pairwise fun a b => a.metadata.id ≠ b.metadata.id
  state : inbox'.chatInboxState =
    ⟨pageCursor inbox.chatInboxState.cursor channels, head, false⟩
  entries : inbox'.entries = channels.foldl putEntry inbox.entries

theorem applyChatInboxPage_eq_ok
    (h : inbox.applyChatInboxPage head channels = .ok (state, inbox')) :
    PageApplied inbox inbox' head channels ∧ state = inbox'.chatInboxState := by
  obtain ⟨stored, hstored, hchecks⟩ := bind_eq_ok.mp h
  rw [sqliteInteger_eq_ok hstored] at hchecks
  obtain ⟨_, happly⟩ := ite_error_eq_ok.mp hchecks
  obtain ⟨entries, hentries, hprogress⟩ := bind_eq_ok.mp happly
  obtain ⟨_, hdone⟩ := ite_error_eq_ok.mp hprogress
  cases hdone
  obtain ⟨hrows, hids, hfold⟩ := applyRows_eq_ok hentries
  exact ⟨⟨fun channel hchannel => ⟨(hrows channel hchannel).1, (hrows channel hchannel).2.1⟩, hids,
    rfl, hfold⟩, rfl⟩

theorem observeChatInboxHead_eq_ok {degraded : Bool}
    (h : inbox.observeChatInboxHead head degraded = .ok (state, inbox')) :
    inbox'.entries = inbox.entries ∧
      inbox'.chatInboxState = ⟨inbox.chatInboxState.cursor, head, degraded⟩ ∧
      state = inbox'.chatInboxState := by
  obtain ⟨_, hchecked⟩ := ite_error_eq_ok.mp h
  obtain ⟨stored, hstored, hdone⟩ := bind_eq_ok.mp hchecked
  rw [sqliteInteger_eq_ok hstored] at hdone
  cases hdone
  exact ⟨rfl, rfl, rfl⟩

/-! ## What a drain does -/

section

variable {fetch : Nat → RtChangedThreads → Except Error RtInboxDelta}

/-- The head of an answer without rows was stored. -/
def HeadObserved (inbox inbox' : ChatInbox) (delta : RtInboxDelta) : Prop :=
  inbox'.entries = inbox.entries ∧ inbox'.chatInboxState =
    ⟨inbox.chatInboxState.cursor, delta.inboxVersion,
      inbox.chatInboxState.cursor < delta.inboxVersion⟩

variable {result : Except Error (ChatInboxState × Nat)} {applied : Nat} {maximum : UInt64}

/-- One round of the loop: it fails, asks again for more rows, stores the head and ends, or applies
    a page and then fails, ends or goes on. -/
theorem drainPages_cases {pages page : Nat}
    (h : drainPages fetch (pages + 1) page maximum inbox.chatInboxState applied inbox =
      (result, inbox')) : (∃ error, result = .error error ∧ inbox' = inbox) ∨
    ∃ delta, fetch page ⟨.chat, inbox.chatInboxState.cursor, maximum⟩ = .ok delta ∧
      ((maximum.toNat < chatInboxRows ∧ drainPages fetch pages (page + 1)
          (UInt64.ofNat chatInboxRows) inbox.chatInboxState applied inbox = (result, inbox')) ∨
        (HeadObserved inbox inbox' delta ∧ result = .ok (inbox'.chatInboxState, applied)) ∨
        ∃ mid, PageApplied inbox mid delta.inboxVersion delta.channels ∧ delta.channels ≠ [] ∧
          ((∃ error, result = .error error ∧ inbox' = mid) ∨
            (inbox' = mid ∧ result = .ok (mid.chatInboxState, applied + delta.channels.length)) ∨
            drainPages fetch pages (page + 1) defaultPage mid.chatInboxState
              (applied + delta.channels.length) mid = (result, inbox'))) := by
  rw [drainPages] at h
  split at h
  · cases h
    exact .inl ⟨_, rfl, rfl⟩
  · rename_i delta hdelta
    split at h
    · cases h
      exact .inl ⟨_, rfl, rfl⟩
    · split at h
      · split at h
        · rename_i hmore
          exact .inr ⟨delta, hdelta, .inl ⟨hmore.2, h⟩⟩
        · split at h
          · cases h
            exact .inl ⟨_, rfl, rfl⟩
          · rename_i state mid hobserve
            cases h
            obtain ⟨hentries, hstate, rfl⟩ := observeChatInboxHead_eq_ok hobserve
            exact .inr ⟨delta, hdelta, .inr (.inl ⟨⟨hentries, hstate⟩, rfl⟩)⟩
      · rename_i hsome
        have hchannels : delta.channels ≠ [] := by simpa using hsome
        split at h
        · cases h
          exact .inl ⟨_, rfl, rfl⟩
        · rename_i state mid happly
          obtain ⟨happlied, rfl⟩ := applyChatInboxPage_eq_ok happly
          refine .inr ⟨delta, hdelta, .inr (.inr ⟨mid, happlied, hchannels, ?_⟩)⟩
          split at h
          · cases h
            exact .inl ⟨_, rfl, rfl⟩
          · split at h
            · cases h
              exact .inr (.inl ⟨rfl, rfl⟩)
            · exact .inr (.inr h)

/-- What holds of the stored inbox at the time of a request, and is kept by the answer and until the
    next request, holds at the end of the loop. -/
theorem drainPages_invariant {P : Nat → ChatInbox → Prop}
    (hnext : ∀ page inbox, P page inbox → P (page + 1) inbox)
    (happly : ∀ page maximum inbox inbox' delta, P page inbox →
      fetch page ⟨.chat, inbox.chatInboxState.cursor, maximum⟩ = .ok delta →
      PageApplied inbox inbox' delta.inboxVersion delta.channels → delta.channels ≠ [] →
      P page inbox') (hobserve : ∀ page maximum inbox inbox' delta, P page inbox →
      fetch page ⟨.chat, inbox.chatInboxState.cursor, maximum⟩ = .ok delta →
      HeadObserved inbox inbox' delta → P page inbox') {pages page : Nat} (hstart : P page inbox)
    (h : drainPages fetch pages page maximum inbox.chatInboxState applied inbox =
      (result, inbox')) : ∃ last, last ≤ page + pages ∧ P last inbox' := by
  induction pages generalizing page maximum applied inbox with
  | zero =>
    cases h
    exact ⟨page, Nat.le_refl _, hstart⟩
  | succ pages ih =>
    have hbound {last : Nat} (hlast : last ≤ page + 1 + pages) : last ≤ page + (pages + 1) := by
      omega
    rcases drainPages_cases h with ⟨_, _, rfl⟩ | ⟨delta, hdelta, hcase⟩
    · exact ⟨page, Nat.le_add_right _ _, hstart⟩
    · rcases hcase with ⟨_, hrest⟩ | ⟨hobserved, _⟩ | ⟨mid, happlied, hchannels, hcase⟩
      · obtain ⟨last, hlast, hP⟩ := ih (hnext page inbox hstart) hrest
        exact ⟨last, hbound hlast, hP⟩
      · exact ⟨page, Nat.le_add_right _ _,
          hobserve page maximum inbox inbox' delta hstart hdelta hobserved⟩
      · have hmid := happly page maximum inbox mid delta hstart hdelta happlied hchannels
        rcases hcase with ⟨_, _, rfl⟩ | ⟨rfl, _⟩ | hrest
        · exact ⟨page, Nat.le_add_right _ _, hmid⟩
        · exact ⟨page, Nat.le_add_right _ _, hmid⟩
        · obtain ⟨last, hlast, hP⟩ := ih (hnext page mid hmid) hrest
          exact ⟨last, hbound hlast, hP⟩

/-- Against a server that does not move, two rounds are enough to store its head. -/
theorem drainPages_head
    (hfetch : ∀ page query delta, fetch page query = .ok delta → delta.inboxVersion = head)
    {pages page : Nat} {applied' : Nat} (henough : inbox.chatInboxState.head = head ∨ 2 ≤ pages ∨
      1 ≤ pages ∧ chatInboxRows ≤ maximum.toNat)
    (h : drainPages fetch pages page maximum inbox.chatInboxState applied inbox =
      (.ok (state, applied'), inbox')) :
    state = inbox'.chatInboxState ∧ inbox'.chatInboxState.head = head := by
  induction pages generalizing page maximum applied inbox with
  | zero =>
    cases h
    refine ⟨rfl, henough.resolve_right ?_⟩
    omega
  | succ pages ih =>
    rcases drainPages_cases h with ⟨_, herror, _⟩ | ⟨delta, hdelta, hcase⟩
    · cases herror
    · have hhead := hfetch _ _ _ hdelta
      rcases hcase with ⟨hfew, hrest⟩ | ⟨hobserved, hresult⟩ | ⟨mid, happlied, _, hcase⟩
      · refine ih ?_ hrest
        rcases henough with hsame | hpages | hpages
        · exact .inl hsame
        · exact .inr (.inr ⟨by omega, Nat.le_refl _⟩)
        · omega
      · cases hresult
        refine ⟨rfl, ?_⟩
        rw [hobserved.2]
        exact hhead
      · have hmid : mid.chatInboxState.head = head := by
          rw [happlied.state]
          exact hhead
        rcases hcase with ⟨_, herror, _⟩ | ⟨rfl, hresult⟩ | hrest
        · cases herror
        · cases hresult
          exact ⟨rfl, hmid⟩
        · exact ih (.inl hmid) hrest

theorem checkDrained_eq_ok {drained : ChatInboxState × Nat}
    (h : checkDrained result = .ok drained) :
    result = .ok drained := by
  obtain ⟨⟨state, applied⟩, hresult, hchecked⟩ := bind_eq_ok.mp h
  obtain ⟨_, hdone⟩ := ite_error_eq_ok.mp hchecked
  cases hdone
  exact hresult

/-- A drain is the loop, with no round at all only from a degraded state. -/
theorem drainFrom_cases {remoteHead : UInt64}
    (h : drainFrom fetch remoteHead inbox = (result, inbox')) :
    ∃ pages pagesResult, drainPages fetch pages 0 defaultPage inbox.chatInboxState 0 inbox =
        (pagesResult, inbox') ∧ checkDrained pagesResult = result ∧
      (pages = chatInboxPages ∨ pages = 0 ∧ inbox.chatInboxState.degraded = true) := by
  obtain ⟨hresult, hinbox⟩ := Prod.mk.inj h
  refine ⟨_, _, Prod.ext rfl hinbox, hresult, ?_⟩
  split
  · rename_i hdegraded
    exact .inr ⟨rfl, hdegraded.1⟩
  · exact .inl rfl

/-- A drain that says it is done has stored the head of a server that does not move. -/
theorem drainFrom_head {remoteHead : UInt64}
    (hfetch : ∀ page query delta, fetch page query = .ok delta → delta.inboxVersion = head)
    (h : drainFrom fetch remoteHead inbox = (.ok (state, applied), inbox'))
    (hdrained : scopeDrained state = true) :
    state = inbox'.chatInboxState ∧ inbox'.chatInboxState.head = head := by
  obtain ⟨pages, result, hpages, hresult, hcount⟩ := drainFrom_cases h
  rw [checkDrained_eq_ok hresult] at hpages
  rcases hcount with rfl | ⟨rfl, hdegraded⟩
  · exact drainPages_head hfetch (.inr (.inl (by decide))) hpages
  · cases hpages
    simp [scopeDrained, hdegraded] at hdrained

end

end ChatInbox

end Foks.Client
