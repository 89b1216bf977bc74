/-
  The message log of the chat store.

  `Log` says what the tables of channels and messages are like in every database that a run leads
  to: the messages of a channel are numbered from one to its last sequence number, a pointer to a
  predecessor names an earlier message of the same channel, and no read pointer is ahead of its
  channel. Messages and channels stay (`Grows`), so a send that was accepted once is confirmed
  again with the same receipt.
-/
import Foks.ServerDb.RealtimeEffects

namespace Foks.ServerDb

open Foks.Lib Foks.Proto Relation

variable {db : RtDatabase} {uid : List UInt8} {row : RtMessageRow} {limit : UInt64}

namespace RtDatabase

/-- The sequence numbers of the messages of a channel, in the order in which they came. -/
def sequencesOf (db : RtDatabase) (id : RtChannelId) : List Nat :=
  (db.messages.filter fun row => row.channelId = id).map (·.sequence.toNat)

/-- The message names an earlier message of its channel as the one before it. -/
def PointsBack (db : RtDatabase) (row : RtMessageRow) : Prop :=
  ∃ old ∈ db.messages, old.channelId = row.channelId ∧
    old.sequence = row.message.metadata.previousSequence ∧
    old.messageId = row.message.metadata.previousId ∧ old.sequence.toNat < row.sequence.toNat

/-- No read pointer is ahead of its channel. -/
def ReadBounded (db : RtDatabase) : Prop :=
  ∀ row ∈ db.userChannels, ∀ channel ∈ db.channels, channel.id = row.channelId →
    row.readThrough.toNat ≤ channel.lastSequence.toNat

/-- Inbox rows are about channels that exist. -/
def RowsKnown (db : RtDatabase) : Prop :=
  ∀ row ∈ db.userChannels, ∃ channel ∈ db.channels, channel.id = row.channelId

structure Log (db : RtDatabase) : Prop where
  channelIds : Keyed RtChannelRow.id db.channels
  shortIds : Keyed (fun row : RtChannelRow => row.id.short) db.channels
  messageIds : Keyed RtMessageRow.messageId db.messages
  sequences : ∀ channel ∈ db.channels,
    db.sequencesOf channel.id = List.range' 1 channel.lastSequence.toNat
  placed : ∀ row ∈ db.messages, ∃ channel ∈ db.channels, channel.id = row.channelId
  stored : ∀ row ∈ db.messages, StoredMessage row
  previous : ∀ row ∈ db.messages, row.message.metadata.previousSequence ≠ 0 → db.PointsBack row
  known : RowsKnown db
  read : ReadBounded db

/-! ## Inbox rows -/

variable {channel : RtChannelRow} {places : List UInt8 → RtChannelId → Prop} {db' : RtDatabase}

theorem readThrough_le (h : ReadBounded db) (hchannel : channel ∈ db.channels) (uid : List UInt8) :
    (db.readThrough uid channel.id).toNat ≤ channel.lastSequence.toNat := by
  unfold readThrough
  cases hrow : db.userChannel? uid channel.id with
  | none => exact Nat.zero_le _
  | some row =>
    have hid : channel.id = row.channelId := (Prod.mk.inj (userChannel?_place hrow)).2.symm
    exact h row (List.mem_of_find?_eq_some hrow) channel hchannel hid

/-- Writes that go no further than their channels keep the read pointers behind. -/
theorem Writes.readBounded (h : Writes (Touches places limit) db db')
    (hlimit : ∀ uid, ∀ channel ∈ db.channels, places uid channel.id →
      limit.toNat ≤ channel.lastSequence.toNat) (hbounded : ReadBounded db) : ReadBounded db' := by
  suffices hboth : ReadBounded db' ∧ db'.channels = db.channels from hboth.1
  refine h.invariant (P := fun b => ReadBounded b ∧ b.channels = db.channels) ?_ ⟨hbounded, rfl⟩
  rintro a b row htouch hwritten ⟨ha, hchannels⟩
  have hsame : b.channels = a.channels := hwritten.sameChat.symm_fields.1
  refine ⟨fun other hother channel hchannel hid => ?_, by rw [hsame, hchannels]⟩
  rw [hwritten.rows] at hother
  rw [hsame] at hchannel
  rcases mem_upsertRow.mp hother with ⟨hother, _⟩ | rfl
  · exact ha other hother channel hchannel hid
  · have hold := readThrough_le ha hchannel other.uid
    have hnew := hlimit other.uid channel (hchannels ▸ hchannel) (hid ▸ htouch.place)
    have hread := htouch.read
    rw [← hid] at hread
    omega

theorem Writes.rowsKnown (h : Writes (Touches places limit) db db')
    (hplaces : ∀ uid id, places uid id → ∃ channel ∈ db.channels, channel.id = id)
    (hknown : RowsKnown db) : RowsKnown db' := by
  suffices hboth : RowsKnown db' ∧ db'.channels = db.channels from hboth.1
  refine h.invariant (P := fun b => RowsKnown b ∧ b.channels = db.channels) ?_ ⟨hknown, rfl⟩
  rintro a b row htouch hwritten ⟨ha, hchannels⟩
  have hsame : b.channels = a.channels := hwritten.sameChat.symm_fields.1
  refine ⟨fun other hother => ?_, by rw [hsame, hchannels]⟩
  rw [hwritten.rows] at hother
  rw [hsame]
  rcases mem_upsertRow.mp hother with ⟨hother, _⟩ | rfl
  · exact ha other hother
  · rw [hchannels]
    exact hplaces _ _ htouch.place

/-! ## What a step does to the log -/

theorem mem_sequencesOf {id : RtChannelId} {n : Nat} :
    n ∈ db.sequencesOf id ↔ ∃ row ∈ db.messages, row.channelId = id ∧ row.sequence.toNat = n := by
  simp [sequencesOf, and_assoc]

theorem Log.message_le (h : Log db) (hchannel : channel ∈ db.channels) (hrow : row ∈ db.messages)
    (hid : row.channelId = channel.id) :
    1 ≤ row.sequence.toNat ∧ row.sequence.toNat ≤ channel.lastSequence.toNat := by
  have hmem : row.sequence.toNat ∈ db.sequencesOf channel.id :=
    mem_sequencesOf.mpr ⟨row, hrow, hid, rfl⟩
  rw [h.sequences channel hchannel, List.mem_range'_1] at hmem
  omega

theorem messageAt?_eq_some {id : RtChannelId} {sequence : UInt64}
    (h : db.messageAt? id sequence = some row) :
    row ∈ db.messages ∧ row.channelId = id ∧ row.sequence = sequence := by
  have hfound := List.find?_some h
  simp only [Bool.and_eq_true, decide_eq_true_eq] at hfound
  exact ⟨List.mem_of_find?_eq_some h, hfound⟩

/-- Messages stay where they are, channels keep their configuration. -/
structure Grows (db db' : RtDatabase) : Prop where
  messages : db.messages <+: db'.messages
  channels : ∀ channel ∈ db.channels, ∃ channel' ∈ db'.channels,
    channel'.metadata = channel.metadata ∧ channel'.format = channel.format

theorem Grows.refl (db : RtDatabase) : Grows db db :=
  ⟨List.prefix_rfl, fun channel hchannel => ⟨channel, hchannel, rfl, rfl⟩⟩

theorem Grows.trans {a b c : RtDatabase} (hab : Grows a b) (hbc : Grows b c) : Grows a c := by
  refine ⟨hab.messages.trans hbc.messages, fun channel hchannel => ?_⟩
  obtain ⟨mid, hmid, hmetadata, hformat⟩ := hab.channels channel hchannel
  obtain ⟨last, hlast, hmetadata', hformat'⟩ := hbc.channels mid hmid
  exact ⟨last, hlast, hmetadata'.trans hmetadata, hformat'.trans hformat⟩

theorem Grows.of_eq (hmessages : db'.messages = db.messages)
    (hchannels : db'.channels = db.channels) : Grows db db' := by
  refine ⟨by rw [hmessages], fun channel hchannel => ⟨channel, ?_, rfl, rfl⟩⟩
  rw [hchannels]
  exact hchannel

theorem Log.of_eq (h : Log db) (hmessages : db'.messages = db.messages)
    (hchannels : db'.channels = db.channels) (hknown : RowsKnown db') (hread : ReadBounded db') :
    Log db' := by
  have hsequences (id : RtChannelId) : db'.sequencesOf id = db.sequencesOf id := by
    rw [sequencesOf, hmessages]
    rfl
  constructor
  · rw [hchannels]
    exact h.channelIds
  · rw [hchannels]
    exact h.shortIds
  · rw [hmessages]
    exact h.messageIds
  · intro channel hchannel
    rw [hsequences]
    exact h.sequences channel (hchannels ▸ hchannel)
  · rw [hmessages, hchannels]
    exact h.placed
  · rw [hmessages]
    exact h.stored
  · intro row hrow hpointer
    unfold PointsBack
    rw [hmessages]
    exact h.previous row (hmessages ▸ hrow) hpointer
  · exact hknown
  · exact hread

section

variable {db mid db' : RtDatabase} {channel : RtChannelRow} {uids : List (List UInt8)}

section

variable (h : ChannelCreated db mid db' channel uids)
include h

theorem ChannelCreated.fields :
    db'.channels = db.channels ++ [channel] ∧ db'.messages = db.messages := by
  have hsame := h.writes.sameChat.symm_fields
  rw [hsame.1, hsame.2.1, h.inserted]
  exact ⟨rfl, rfl⟩

theorem ChannelCreated.grows : Grows db db' := by
  refine ⟨by rw [h.fields.2], fun old hold => ⟨old, ?_, rfl, rfl⟩⟩
  rw [h.fields.1]
  exact List.mem_append_left _ hold

/-- No message and no inbox row has the identifier of a new channel. -/
theorem ChannelCreated.log (hlog : Log db) :
    Log db' := by
  obtain ⟨hchannels, hmessages⟩ := h.fields
  have hfresh (old : RtChannelRow) (hold : old ∈ db.channels) : old.id ≠ channel.id :=
    (h.fresh old hold).1
  have hsequences (id : RtChannelId) : db'.sequencesOf id = db.sequencesOf id := by
    rw [sequencesOf, hmessages]
    rfl
  have hnone : db.sequencesOf channel.id = [] := by
    refine List.eq_nil_iff_forall_not_mem.mpr fun n hn => ?_
    obtain ⟨row, hrow, hid, _⟩ := mem_sequencesOf.mp hn
    obtain ⟨old, hold, holdId⟩ := hlog.placed row hrow
    exact hfresh old hold (holdId.trans hid)
  have hread : ReadBounded mid := by
    rw [h.inserted]
    intro row hrow old hold hid
    rcases List.mem_append.mp hold with hold | hold
    · exact hlog.read row hrow old hold hid
    · rw [List.mem_singleton.mp hold] at hid
      obtain ⟨known, hmem, hknownId⟩ := hlog.known row hrow
      exact absurd (hknownId.trans hid.symm) (hfresh known hmem)
  have hrows : RowsKnown mid := by
    rw [h.inserted]
    intro row hrow
    obtain ⟨known, hmem, hknownId⟩ := hlog.known row hrow
    exact ⟨known, List.mem_append_left _ hmem, hknownId⟩
  constructor
  · rw [hchannels]
    refine hlog.channelIds.append (keyed_singleton channel) fun new hnew old hold => ?_
    rw [List.mem_singleton.mp hnew]
    exact hfresh old hold
  · rw [hchannels]
    refine hlog.shortIds.append (keyed_singleton channel) fun new hnew old hold => ?_
    rw [List.mem_singleton.mp hnew]
    exact (h.fresh old hold).2
  · rw [hmessages]
    exact hlog.messageIds
  · intro old hold
    rw [hchannels] at hold
    rw [hsequences]
    rcases List.mem_append.mp hold with hold | hold
    · exact hlog.sequences old hold
    · rw [List.mem_singleton.mp hold, hnone, h.blank.2]
      rfl
  · intro row hrow
    rw [hmessages] at hrow
    obtain ⟨old, hold, hid⟩ := hlog.placed row hrow
    rw [hchannels]
    exact ⟨old, List.mem_append_left _ hold, hid⟩
  · rw [hmessages]
    exact hlog.stored
  · intro row hrow hpointer
    unfold PointsBack
    rw [hmessages] at hrow ⊢
    exact hlog.previous row hrow hpointer
  · refine h.writes.rowsKnown (fun uid id hplace => ⟨channel, ?_, hplace.2.symm⟩) hrows
    rw [h.inserted]
    exact List.mem_append_right _ List.mem_cons_self
  · exact h.writes.readBounded (fun _ _ _ _ => Nat.zero_le _) hread

end

end

section

variable {db mid db' : RtDatabase} {channel : RtChannelRow} {row : RtMessageRow}
  {uids : List (List UInt8)}

theorem withLast_id (row : RtMessageRow) (channel : RtChannelRow) :
    (withLast row channel).id = channel.id := congrArg RtChannelMetadata.id
  (withLast_metadata row channel).1

theorem MessageAppended.fields (h : MessageAppended db mid db' channel row uids) :
    db'.channels = db.channels.map (withLast row) ∧ db'.messages = db.messages ++ [row] := by
  have hsame := h.writes.sameChat.symm_fields
  rw [hsame.1, hsame.2.1, h.inserted]
  exact ⟨rfl, rfl⟩

theorem MessageAppended.grows (h : MessageAppended db mid db' channel row uids) :
    Grows db db' := by
  refine ⟨by rw [h.fields.2]; exact List.prefix_append _ _, fun old hold => ?_⟩
  rw [h.fields.1]
  exact ⟨_, List.mem_map_of_mem hold, withLast_metadata row old⟩

theorem keyed_map_withLast {κ : Type} {key : RtChannelRow → κ} {channels : List RtChannelRow}
    (hkey : ∀ channel, key (withLast row channel) = key channel) (h : Keyed key channels) :
    Keyed key (channels.map (withLast row)) := by
  unfold Keyed at *
  rw [List.map_map]
  have hsame : key ∘ withLast row = key := funext hkey
  rw [hsame]
  exact h

section

variable (h : MessageAppended db mid db' channel row uids)
include h

/-- A message at the end of its channel is the last one there. -/
theorem MessageAppended.sequences
    (hlog : Log db) (other : RtChannelRow) (hother : other ∈ db.channels) :
    db'.sequencesOf other.id = List.range' 1 (withLast row other).lastSequence.toNat := by
  have hsplit : db'.sequencesOf other.id =
      db.sequencesOf other.id ++ if row.channelId = other.id then [row.sequence.toNat] else [] := by
    rw [sequencesOf, h.fields.2, List.filter_append, List.map_append]
    congr 1
    split <;> simp [*]
  rw [hsplit, hlog.sequences other hother]
  by_cases hid : row.channelId = other.id
  · have hsame : other = channel :=
      hlog.channelIds.eq hother h.known (hid.symm.trans h.place)
    subst hsame
    have hlast : (withLast row other).lastSequence = row.sequence := by
      unfold withLast
      rw [if_pos hid.symm]
    rw [if_pos hid, hlast, h.sequence, List.range'_1_concat, Nat.add_comm 1]
  · have hlast : (withLast row other).lastSequence = other.lastSequence := by
      unfold withLast
      rw [if_neg fun heq => hid heq.symm]
    rw [if_neg hid, hlast, List.append_nil]

theorem MessageAppended.pointsBack
    (hlog : Log db) (hpointer : row.message.metadata.previousSequence ≠ 0) :
    db'.PointsBack row := by
  obtain ⟨old, hold, hid⟩ := h.previous hpointer
  obtain ⟨hmem, hplace, hsequence⟩ := messageAt?_eq_some hold
  have hlast := (hlog.message_le h.known hmem hplace).2
  refine ⟨old, ?_, hplace.trans h.place.symm, hsequence, hid, ?_⟩
  · rw [h.fields.2]
    exact List.mem_append_left _ hmem
  · have hnext := h.sequence
    omega

/-- The read pointers before a message are behind it. -/
theorem MessageAppended.readBounded_mid (hlog : Log db) : ReadBounded mid := by
  rw [h.inserted]
  intro entry hentry last hlast hid
  obtain ⟨old, hold, rfl⟩ := List.mem_map.mp hlast
  rw [withLast_id] at hid
  have hbefore := hlog.read entry hentry old hold hid
  unfold withLast
  split
  · rename_i hhere
    have hsame : old = channel := hlog.channelIds.eq hold h.known (hhere.trans h.place)
    subst hsame
    have hnext := h.sequence
    show entry.readThrough.toNat ≤ row.sequence.toNat
    omega
  · exact hbefore

theorem MessageAppended.log (hlog : Log db) :
    Log db' := by
  obtain ⟨hchannels, hmessages⟩ := h.fields
  constructor
  · rw [hchannels]
    exact keyed_map_withLast (withLast_id row) hlog.channelIds
  · rw [hchannels]
    exact keyed_map_withLast (fun other => congrArg RtChannelId.short (withLast_id row other))
      hlog.shortIds
  · rw [hmessages]
    refine hlog.messageIds.append (keyed_singleton row) fun new hnew old hold => ?_
    rw [List.mem_singleton.mp hnew]
    exact h.fresh old hold
  · intro last hlast
    rw [hchannels] at hlast
    obtain ⟨old, hold, rfl⟩ := List.mem_map.mp hlast
    rw [withLast_id]
    exact h.sequences hlog old hold
  · intro message hmessage
    rw [hmessages] at hmessage
    have hold : ∃ old ∈ db.channels, old.id = message.channelId := by
      rcases List.mem_append.mp hmessage with hmessage | hmessage
      · exact hlog.placed message hmessage
      · rw [List.mem_singleton.mp hmessage]
        exact ⟨channel, h.known, h.place.symm⟩
    obtain ⟨old, hold, hid⟩ := hold
    rw [hchannels]
    exact ⟨_, List.mem_map_of_mem hold, (withLast_id row old).trans hid⟩
  · intro message hmessage
    rw [hmessages] at hmessage
    rcases List.mem_append.mp hmessage with hmessage | hmessage
    · exact hlog.stored message hmessage
    · rw [List.mem_singleton.mp hmessage]
      exact h.stored
  · intro message hmessage hpointer
    rw [hmessages] at hmessage
    rcases List.mem_append.mp hmessage with hmessage | hmessage
    · obtain ⟨old, hold, hback⟩ := hlog.previous message hmessage hpointer
      refine ⟨old, ?_, hback⟩
      rw [hmessages]
      exact List.mem_append_left _ hold
    · rw [List.mem_singleton.mp hmessage] at hpointer ⊢
      exact h.pointsBack hlog hpointer
  · refine h.writes.rowsKnown (fun uid id hplace => ⟨withLast row channel, ?_, ?_⟩) ?_
    · rw [h.inserted]
      exact List.mem_map_of_mem h.known
    · rw [withLast_id, hplace.2]
    · rw [h.inserted]
      intro entry hentry
      obtain ⟨old, hold, hid⟩ := hlog.known entry hentry
      exact ⟨_, List.mem_map_of_mem hold, (withLast_id row old).trans hid⟩
  · refine h.writes.readBounded (fun uid last hlast htouched => ?_) (h.readBounded_mid hlog)
    -- the pointer of the sender goes to the message, which is the last of its channel
    rw [h.inserted] at hlast
    obtain ⟨old, hold, rfl⟩ := List.mem_map.mp hlast
    have hid : old.id = row.channelId := (withLast_id row old).symm.trans
      (htouched.2.trans h.place.symm)
    unfold withLast
    rw [if_pos hid]

end

end

/-! ## Steps that leave the log alone -/

/-- Channels and messages are as before, and inbox rows were written, if at all, for channels that
    exist and no further than their last messages. -/
structure Quiet (db db' : RtDatabase) : Prop where
  messages : db'.messages = db.messages
  channels : db'.channels = db.channels
  known : RowsKnown db → RowsKnown db'
  read : ReadBounded db → ReadBounded db'

theorem Quiet.trans {a b c : RtDatabase} (hab : Quiet a b) (hbc : Quiet b c) : Quiet a c :=
  ⟨hbc.messages.trans hab.messages, hbc.channels.trans hab.channels,
    fun h => hbc.known (hab.known h), fun h => hbc.read (hab.read h)⟩

theorem Quiet.of_eq (hmessages : db'.messages = db.messages)
    (hchannels : db'.channels = db.channels) (hrows : db'.userChannels = db.userChannels) :
    Quiet db db' := by
  refine ⟨hmessages, hchannels, fun h => ?_, fun h => ?_⟩
  · unfold RowsKnown
    rw [hrows, hchannels]
    exact h
  · unfold ReadBounded
    rw [hrows, hchannels]
    exact h

theorem Quiet.of_writes (h : Writes (Touches places limit) db db')
    (hplaces : ∀ uid id, places uid id → ∃ channel ∈ db.channels, channel.id = id)
    (hlimit : ∀ uid, ∀ channel ∈ db.channels, places uid channel.id →
      limit.toNat ≤ channel.lastSequence.toNat) : Quiet db db' :=
  ⟨h.sameChat.symm_fields.2.1, h.sameChat.symm_fields.1, h.rowsKnown hplaces,
    h.readBounded hlimit⟩

theorem ReadMoved.quiet {read : RtReadThrough} (h : ReadMoved db db' uid read) (hlog : Log db) :
    Quiet db db' := by
  refine Quiet.of_writes h.writes ?_ ?_
  · rintro _ _ ⟨rfl, rfl⟩
    obtain ⟨channel, hchannel, _⟩ := h.readable
    exact ⟨channel, List.mem_of_find?_eq_some hchannel, by simpa using List.find?_some hchannel⟩
  · rintro _ channel hchannel ⟨rfl, hid⟩
    obtain ⟨row, hrow⟩ := h.message
    obtain ⟨hmem, hplace, hsequence⟩ := messageAt?_eq_some hrow
    rw [← hsequence]
    exact (hlog.message_le hchannel hmem (hplace.trans hid.symm)).2

theorem mem_candidates {after : Option RtChannelId} : channel ∈ db.candidates uid after ↔
      channel ∈ db.channels ∧ db.isCandidate uid channel = true ∧
        ∀ cursor, after = some cursor → channelOrder cursor < channelOrder channel.id := by
  simp [candidates, List.mem_insertionSort, Option.all_eq_true]

theorem PageWalked.quiet {after cursor : Option RtChannelId} {page : List RtChannelRow}
    (h : PageWalked db db' uid after page cursor) : Quiet db db' := by
  obtain ⟨mid, changes, hwalk, rfl⟩ := h.walked
  have hwalked : Quiet db mid := by
    refine Quiet.of_writes (reconcileChannels_eq_ok hwalk).1 ?_ (fun _ _ _ _ => Nat.zero_le _)
    rintro _ _ ⟨rfl, channel, hchannel, hid⟩
    rw [h.page_eq] at hchannel
    exact ⟨channel, (mem_candidates.mp (List.mem_of_mem_take hchannel)).1, hid⟩
  exact hwalked.trans (Quiet.of_eq rfl rfl rfl)

theorem foldl_invalidate (uids : List (List UInt8)) (db : RtDatabase) :
    uids.foldl invalidate db = { db with inboxes := (uids.foldl invalidate db).inboxes } := by
  induction uids generalizing db with
  | nil => rfl
  | cons uid uids ih =>
    rw [List.foldl_cons, ih]
    rfl

/-- A step creates a channel, appends a message, or leaves the log alone. -/
theorem Step.log_cases (h : Step db db') (hlog : Log db) :
    (∃ mid channel uids, ChannelCreated db mid db' channel uids) ∨
      (∃ mid channel row uids, MessageAppended db mid db' channel row uids) ∨ Quiet db db' := by
  cases h with
  | create h => exact .inl (rtCreateChannelWithFormat_cases h)
  | send h =>
    obtain ⟨_, channel, _, row, _, _, _, _, _, _, _, _, hcase⟩ := rtSend_cases h
    rcases hcase with ⟨_, rfl⟩ | ⟨_, mid, uids, happended⟩
    · exact .inr (.inr (Quiet.of_eq rfl rfl rfl))
    · exact .inr (.inl ⟨mid, channel, row, uids, happended⟩)
  | readThrough h => exact .inr (.inr ((rtReadThrough_cases h).quiet hlog))
  | reconcile h =>
    refine .inr (.inr ?_)
    obtain ⟨_, mid, hmid, hcase⟩ := rtReconcileInboxPage_cases h
    have hmade : Quiet db mid := by
      rw [(ensureInbox_eq_ok hmid).1]
      exact Quiet.of_eq rfl rfl rfl
    rcases hcase with rfl | ⟨after, page, cursor, hwalked⟩
    · exact hmade
    · exact hmade.trans hwalked.quiet
  | insertMember row => exact .inr (.inr (Quiet.of_eq rfl rfl rfl))
  | deleteMember h => exact .inr (.inr (Quiet.of_eq rfl rfl rfl))
  | updateMember h new =>
    refine .inr (.inr ?_)
    unfold RtDatabase.updateMember
    split <;> exact Quiet.of_eq rfl rfl rfl
  | updateTeam h hid =>
    refine .inr (.inr ?_)
    unfold RtDatabase.updateTeam
    split
    · exact Quiet.of_eq rfl rfl rfl
    · rw [foldl_invalidate]
      exact Quiet.of_eq rfl rfl rfl
  | other permitsNative users devices teamKeys =>
    exact .inr (.inr (Quiet.of_eq rfl rfl rfl))

theorem Step.log (h : Step db db') (hlog : Log db) : Log db' := by
  rcases h.log_cases hlog with ⟨_, _, _, hcreated⟩ | ⟨_, _, _, _, happended⟩ | hquiet
  · exact hcreated.log hlog
  · exact happended.log hlog
  · exact hlog.of_eq hquiet.messages hquiet.channels (hquiet.known hlog.known)
      (hquiet.read hlog.read)

theorem Step.grows (h : Step db db') (hlog : Log db) : Grows db db' := by
  rcases h.log_cases hlog with ⟨_, _, _, hcreated⟩ | ⟨_, _, _, _, happended⟩ | hquiet
  · exact hcreated.grows
  · exact happended.grows
  · exact Grows.of_eq hquiet.messages hquiet.channels

theorem Start.log (h : Start db) : Log db := by
  constructor
  · rw [h.channels]
    exact keyed_nil
  · rw [h.channels]
    exact keyed_nil
  · rw [h.messages]
    exact keyed_nil
  · rw [h.channels]
    exact fun _ hchannel => nomatch hchannel
  · rw [h.messages]
    exact fun _ hrow => nomatch hrow
  · rw [h.messages]
    exact fun _ hrow => nomatch hrow
  · rw [h.messages]
    exact fun _ hrow => nomatch hrow
  · unfold RowsKnown
    rw [h.userChannels]
    exact fun _ hrow => nomatch hrow
  · unfold ReadBounded
    rw [h.userChannels]
    exact fun _ hrow => nomatch hrow

theorem Log.run (hlog : Log db) (h : ReflTransGen Step db db') : Log db' ∧ Grows db db' := by
  induction h with
  | refl => exact ⟨hlog, Grows.refl db⟩
  | tail _ hstep ih => exact ⟨hstep.log ih.1, ih.2.trans (hstep.grows ih.1)⟩

theorem Reached.log (h : Reached db) : Log db := by
  obtain ⟨start, hstart, hrun⟩ := h
  exact (hstart.log.run hrun).1

/-! ## Sending again -/

/-- The actor may write to the channel with a short identifier. -/
def MayWrite (db : RtDatabase) (actor : RealtimeActor) (short : Nat) (now : UInt64) : Prop :=
  db.checkActor actor now = .ok () ∧ ∃ channel ∈ db.channels, channel.id.short = short ∧
    ∃ role policy, db.membershipRole actor.uid channel.team = .ok (some role) ∧
      ChannelPolicy.new channel.metadata = .ok policy ∧ policy.requireWrite role = .ok ()

theorem Log.requireBasic (hlog : Log db) (hchannel : channel ∈ db.channels) :
    db.requireBasic channel.id = .ok () ↔ channel.format = 1 := by
  have hfind : db.channelRow? channel.id = some channel :=
    hlog.channelIds.find?_eq_some.mpr ⟨hchannel, rfl⟩
  unfold RtDatabase.requireBasic
  split <;> simp_all

/-- A send whose message is stored is confirmed with the columns of the row. -/
theorem Log.rtSend_again (hlog : Log db) {actor : RealtimeActor} {send : RtSend}
    {box : RtMessageBox} {now : UInt64} {envelope : List UInt8} (hbox : checkSend send = .ok box)
    (hchannel : channel ∈ db.channels) (hformat : channel.format = 1)
    (hrole : box.key.role = channel.metadata.roles.read)
    (hmay : db.MayWrite actor channel.id.short now) (hshort : send.channel = channel.id.short)
    (henvelope : (identity send).encoded = .ok envelope) (hrow : row ∈ db.messages)
    (hid : row.messageId = send.metadata.id) (hplace : row.channelId = channel.id)
    (hsender : row.sender = actor.uid) (hsame : row.envelope = envelope) :
    db.rtSend actor send now = .ok (⟨⟨row.sequence, row.insertTime⟩, []⟩, db) := by
  obtain ⟨hactor, other, hother, hotherShort, hwrite⟩ := hmay
  obtain rfl : other = channel := hlog.shortIds.eq hother hchannel hotherShort
  have hfind : db.channels.find? (fun row => row.id.short = send.channel) = some other := by
    rw [hshort]
    exact hlog.shortIds.find?_eq_some.mpr ⟨hother, rfl⟩
  have hroles : other.project.roles = other.metadata.roles := by
    unfold RtChannelRow.project
    split <;> rfl
  have hsend : db.sendChannel actor send box now = .ok other :=
    sendChannel_eq_ok.mpr ⟨hfind, hactor, hwrite, (hlog.requireBasic hother).mpr hformat,
      by rw [hroles, hrole]⟩
  have hstored : db.messages.find? (fun row => row.messageId = send.metadata.id) = some row :=
    hlog.messageIds.find?_eq_some.mpr ⟨hrow, hid⟩
  refine bind_eq_ok.mpr ⟨box, hbox, bind_eq_ok.mpr ⟨other, hsend, bind_eq_ok.mpr
    ⟨envelope, protoValue_eq_ok.mpr henvelope, ?_⟩⟩⟩
  unfold storeMessage
  rw [hstored]
  show confirmMessage db actor other envelope row = _
  unfold confirmMessage
  rw [if_neg]
  rintro (hne | hne | hne)
  · exact hne hplace
  · exact hne hsender
  · exact hne hsame

/-- The message log of every database that a run leads to, and what a second send of a message
    gives: the receipt of the first one, whatever came in between, as long as the sender may
    write. -/
theorem Reached.log_sound {db : RtDatabase} (h : Reached db) :
    (∀ channel ∈ db.channels,
      db.sequencesOf channel.id = List.range' 1 channel.lastSequence.toNat) ∧
    (∀ row ∈ db.messages, ∃ channel ∈ db.channels, channel.id = row.channelId) ∧
    (db.messages.map (·.messageId)).Nodup ∧
    (∀ row ∈ db.messages, row.message.metadata.previousSequence ≠ 0 ∨
      row.message.metadata.previousId ≠ .replicate 16 0 → db.PointsBack row) ∧
    (∀ row ∈ db.userChannels, ∃ channel ∈ db.channels, channel.id = row.channelId ∧
      row.readThrough.toNat ≤ channel.lastSequence.toNat) ∧
    ∀ actor send now commit sent later again now' expected,
      db.rtSend actor send now = .ok (commit, sent) → ReflTransGen Step sent later →
      again.uid = actor.uid → later.MayWrite again send.channel now' →
      later.rtSend again { send with expectedPreviousSequence := expected } now' =
        .ok (⟨commit.value, []⟩, later) := by
  have hlog := h.log
  refine ⟨hlog.sequences, hlog.placed, hlog.messageIds, ?_, ?_, ?_⟩
  · intro row hrow hpointer
    refine hlog.previous row hrow fun hzero => ?_
    rcases hpointer with hne | hne
    · exact hne hzero
    · exact hne ((hlog.stored row hrow).pointer.mp hzero)
  · intro row hrow
    obtain ⟨channel, hchannel, hid⟩ := hlog.known row hrow
    exact ⟨channel, hchannel, hid, hlog.read row hrow channel hchannel hid⟩
  · intro actor send now commit sent later again now' expected hsend hrun huid hmay
    obtain ⟨box, channel, envelope, row, hbox, hchannel, henvelope, hid, hplace, hsender, hsame,
      hvalue, hcase⟩ := rtSend_cases hsend
    obtain ⟨hfind, _, _, hbasic, hrole⟩ := sendChannel_eq_ok.mp hchannel
    have hmem : channel ∈ db.channels := List.mem_of_find?_eq_some hfind
    have hshort : channel.id.short = send.channel := by simpa using List.find?_some hfind
    have hstep : Step db sent := .send hsend
    have hstored : row ∈ sent.messages := by
      rcases hcase with ⟨hrow, rfl⟩ | ⟨_, mid, uids, happended⟩
      · exact hrow
      · rw [happended.fields.2]
        exact List.mem_append_right _ List.mem_cons_self
    obtain ⟨hlater, hgrows⟩ := (hstep.log hlog).run hrun
    obtain ⟨last, hlast, hmetadata, hformat⟩ :=
      ((hstep.grows hlog).trans hgrows).channels channel hmem
    have hlastId : last.id = channel.id := congrArg RtChannelMetadata.id hmetadata
    have hroles : channel.project.roles = channel.metadata.roles := by
      unfold RtChannelRow.project
      split <;> rfl
    have hlastFormat : last.format = 1 := hformat.trans ((hlog.requireBasic hmem).mp hbasic)
    have hlastRole : box.key.role = last.metadata.roles.read := by rw [hrole, hroles, hmetadata]
    have hlastShort : send.channel = last.id.short := by rw [hlastId, hshort]
    rw [hlastShort] at hmay
    rw [hvalue]
    exact hlater.rtSend_again hbox hlast hlastFormat hlastRole hmay hlastShort henvelope
      (hgrows.messages.subset hstored) hid (hplace.trans hlastId.symm) (hsender.trans huid.symm)
      hsame

/-- The log is append-only: however the server goes on, the messages stay and keep their order, and
    a channel keeps its metadata and never counts back. -/
theorem Reached.log_appends (h : Reached db) (hrun : ReflTransGen Step db db') :
    db.messages <+: db'.messages ∧ ∀ channel ∈ db.channels, ∃ channel' ∈ db'.channels,
      channel'.metadata = channel.metadata ∧
      channel.lastSequence.toNat ≤ channel'.lastSequence.toNat := by
  obtain ⟨hlog, hgrows⟩ := h.log.run hrun
  refine ⟨hgrows.messages, fun channel hchannel => ?_⟩
  obtain ⟨channel', hchannel', hmetadata, -⟩ := hgrows.channels channel hchannel
  refine ⟨channel', hchannel', hmetadata, ?_⟩
  have hid : channel'.id = channel.id := congrArg RtChannelMetadata.id hmetadata
  have hle : (db.sequencesOf channel.id).length ≤ (db'.sequencesOf channel.id).length :=
    ((hgrows.messages.sublist.filter _).map _).length_le
  rw [h.log.sequences channel hchannel, ← hid, hlog.sequences channel' hchannel'] at hle
  simpa using hle

end RtDatabase

/-! ## A channel with two messages -/

namespace RtSample

open RtDatabase

def host : List UInt8 := [2]

def alice : List UInt8 := LinkSample.uid.bytes

def device : List UInt8 := (LinkSample.device 8).bytes

def aliceActor : RealtimeActor := ⟨alice, device, 1000000⟩

def team : RtTeamId := ⟨LinkSample.team, LinkSample.isTeam_team⟩

def owner (uid : List UInt8) : RtMemberRow := ⟨team.entity.bytes, uid, none, 3, 0, 3, 0⟩

/-- A team of one member, with the first key of the lowest role. -/
def start : RtDatabase where
  host := host
  permitsNative := fun _ _ => true
  users := [alice]
  devices := [⟨device, alice, true, 3, 0, none⟩]
  teams := [⟨team.entity.bytes, 3, host⟩]
  teamMembers := [owner alice]
  teamKeys := [⟨team.entity.bytes, 1, -0x4000, 1⟩]
  channelSets := []
  channels := []
  messages := []
  inboxes := []
  userChannels := []

def key : RoleAndGeneration := ⟨minRole, 1⟩

def channelId : RtChannelId := .replicate 16 5

def newChannel : RtCreateChannelArgument :=
  ⟨⟨channelId, team, .chat, 1, ⟨key, ⟨.replicate 16 0, List.replicate 16 0⟩⟩, none,
    ⟨minRole, minRole⟩, none, 0, 0, 1, .bottom, false⟩, 1⟩

def message (tag : UInt8) : RtSend :=
  ⟨⟨.replicate 16 tag, .replicate 16 0, 0, 1, .basic, none⟩, channelId.short,
    .encrypted ⟨List.replicate 16 tag, key⟩, 0⟩

/-- The database after a write, or the one before when it fails. -/
def after {α : Type} (db : RtDatabase) (result : Except Error (α × RtDatabase)) : RtDatabase :=
  (result.toOption.map (·.2)).getD db

theorem eq_ok_after {α : Type} {result : Except Error (α × RtDatabase)} (h : result.isOk = true) :
    ∃ value, result = .ok (value, after db result) := by
  cases result with
  | error error => cases h
  | ok pair => exact ⟨pair.1, rfl⟩

def created : RtDatabase := after start (start.rtCreateChannel aliceActor newChannel 5000)

def sent : RtDatabase := after created (created.rtSend aliceActor (message 1) 6000)

def sentMore : RtDatabase := after sent (sent.rtSend aliceActor (message 2) 7000)

theorem start_starts : Start start := ⟨rfl, rfl, rfl, rfl, rfl⟩

theorem created_ok :
    ∃ value, start.rtCreateChannel aliceActor newChannel 5000 = .ok (value, created) :=
  eq_ok_after (by decide +kernel)

theorem created_reached : Reached created := by
  obtain ⟨_, h⟩ := created_ok
  exact ⟨start, start_starts, ReflTransGen.single (.create h)⟩

theorem sent_ok : ∃ value, created.rtSend aliceActor (message 1) 6000 = .ok (value, sent) :=
  eq_ok_after (by decide +kernel)

theorem sentMore_ok : ∃ value, sent.rtSend aliceActor (message 2) 7000 = .ok (value, sentMore) :=
  eq_ok_after (by decide +kernel)

/-- The first message is sent again after the second one, with a wrong expectation. -/
theorem first_message_confirmed : ∃ receipt : ChatSendReceipt, receipt.sequence = 1 ∧
    sentMore.rtSend aliceActor { message 1 with expectedPreviousSequence := 9 } 8000 =
      .ok (⟨receipt, []⟩, sentMore) := by
  obtain ⟨first, hfirst⟩ := sent_ok
  obtain ⟨second, hsecond⟩ := sentMore_ok
  have hsequence : (created.rtSend aliceActor (message 1) 6000).toOption.map
      (fun result => result.1.value.sequence) = some 1 := by decide +kernel
  rw [hfirst] at hsequence
  obtain ⟨-, -, -, -, -, hagain⟩ := created_reached.log_sound
  refine ⟨first.value, Option.some.inj hsequence, ?_⟩
  refine hagain aliceActor (message 1) 6000 first sent sentMore aliceActor 8000 9 hfirst
    (ReflTransGen.single (.send hsecond)) rfl ?_
  have hchannel : sentMore.channels.any (fun channel =>
      channel.id.short = (message 1).channel ∧
      sentMore.membershipRole alice channel.team = .ok (some .owner) ∧
      ChannelPolicy.new channel.metadata = .ok ⟨minRole, minRole, minRole⟩) = true := by
    decide +kernel
  obtain ⟨channel, hmem, hchannel⟩ := List.any_eq_true.mp hchannel
  obtain ⟨hshort, hrole, hpolicy⟩ := of_decide_eq_true hchannel
  exact ⟨by decide +kernel, channel, hmem, hshort, .owner, _, hrole, hpolicy, by decide⟩

/-- The second message is added behind the first one, and the channel counts on from it. -/
theorem sentMore_appends :
    sent.messages.map (·.sequence) = [1] ∧ sentMore.messages.map (·.sequence) = [1, 2] ∧
    sent.channels.map (·.lastSequence) = [1] ∧
    sent.messages <+: sentMore.messages ∧ ∀ channel ∈ sent.channels,
      ∃ channel' ∈ sentMore.channels, channel'.metadata = channel.metadata ∧
        channel.lastSequence.toNat ≤ channel'.lastSequence.toNat := by
  obtain ⟨_, hfirst⟩ := sent_ok
  obtain ⟨_, hsecond⟩ := sentMore_ok
  obtain ⟨db, hdb, hrun⟩ := created_reached
  have hsent : Reached sent := ⟨db, hdb, hrun.tail (.send hfirst)⟩
  exact ⟨by decide +kernel, by decide +kernel, by decide +kernel,
    hsent.log_appends (.single (.send hsecond))⟩

end RtSample

end Foks.ServerDb
