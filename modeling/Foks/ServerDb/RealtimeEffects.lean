/-
  What the functions of the chat store do to it.

  Every change of an inbox row is one kind of write: the inbox goes to its next version and the row
  is stored with that version (`RowWritten`). Fanout, reconciliation and read pointers are runs of
  such writes (`Writes`), and what they do to the accessible rows is an equation each. On these
  rest the invariants of the message log and of the inboxes.
-/
import Foks.ServerDb.Realtime

namespace Foks.ServerDb

open Foks.Lib Foks.Proto Relation

theorem sqlNext_eq_ok {value next : UInt64} :
    sqlNext value = .ok next ↔ value.toNat + 1 < 2 ^ 63 ∧ next = value + 1 := by
  unfold sqlNext
  split <;> simp_all [eq_comm]

theorem toNat_sqlNext {value next : UInt64} (h : sqlNext value = .ok next) :
    next.toNat = value.toNat + 1 := by
  obtain ⟨hsmall, rfl⟩ := sqlNext_eq_ok.mp h
  show (value.toNat + 1) % 2 ^ 64 = value.toNat + 1
  omega

theorem protoValue_eq_ok {α : Type} {result : Except Proto.Error α} {a : α} :
    protoValue result = .ok a ↔ result = .ok a := mapError_eq_ok

variable {mid : RtDatabase} {send : RtSend} {channel : RtChannelRow}
  {commit : RealtimeCommit RealtimeReconcileReport} {sender team : List UInt8} {box : RtMessageBox}

namespace RtDatabase

/-! ## One write of a row -/

/-- Only the inboxes and their rows differ. -/
def SameChat (db db' : RtDatabase) : Prop :=
  db' = { db with inboxes := db'.inboxes, userChannels := db'.userChannels }

theorem SameChat.refl (db : RtDatabase) : SameChat db db := rfl

theorem SameChat.trans {a b c : RtDatabase} (hab : SameChat a b) (hbc : SameChat b c) :
    SameChat a c := by
  unfold SameChat at *
  rw [hbc, hab]

/-- The inbox of a user, or the one that is made for them. -/
def inboxOrNew (db : RtDatabase) (uid : List UInt8) : RtInboxRow :=
  (db.inbox? uid).getD ⟨uid, 0, true, none⟩

theorem inboxOrNew_version (db : RtDatabase) (uid : List UInt8) :
    (db.inboxOrNew uid).version = db.inboxHead uid := by
  unfold inboxOrNew inboxHead
  cases db.inbox? uid <;> rfl

theorem inbox?_updateInbox (db : RtDatabase) (uid : List UInt8) (change : RtInboxRow → RtInboxRow)
    (hchange : ∀ row, (change row).uid = row.uid) (u : List UInt8) :
    (db.updateInbox uid change).inbox? u =
      if u = uid then (db.inbox? uid).map change else db.inbox? u := by
  have hsame : ((fun row : RtInboxRow => decide (row.uid = u)) ∘
      fun row => if row.uid = uid then change row else row) = fun row => decide (row.uid = u) := by
    funext row
    simp only [Function.comp_apply]
    split
    · rw [hchange]
    · rfl
  unfold updateInbox inbox?
  rw [List.find?_map, hsame]
  by_cases hu : u = uid
  · subst hu
    rw [if_pos rfl]
    cases hrow : db.inboxes.find? fun row => decide (row.uid = u) with
    | none => rfl
    | some row =>
      have huid : row.uid = u := by simpa using List.find?_some hrow
      simp [huid]
  · rw [if_neg hu]
    cases hrow : db.inboxes.find? fun row => decide (row.uid = u) with
    | none => rfl
    | some row =>
      have huid : row.uid = u := by simpa using List.find?_some hrow
      simp [huid, hu]

variable {db db' : RtDatabase} {uid : List UInt8} {row : RtUserChannelRow} {id : RtChannelId}
  {sequence now : UInt64} {uids : List (List UInt8)} {actor : RealtimeActor}

theorem ensureInbox_eq_ok (h : db.ensureInbox uid = .ok db') :
    db' = { db with inboxes := db'.inboxes } ∧
      ∀ u, db'.inbox? u = if u = uid then some (db.inboxOrNew uid) else db.inbox? u := by
  rcases ite_eq_ok h with ⟨hsome, h⟩ | ⟨hnone, h⟩
  · cases h
    refine ⟨rfl, fun u => ?_⟩
    split
    · rename_i hu
      subst hu
      obtain ⟨row, hrow⟩ := Option.isSome_iff_exists.mp hsome
      rw [inboxOrNew, hrow]
      rfl
    · rfl
  · rcases ite_eq_ok h with ⟨_, h⟩ | ⟨_, h⟩
    · cases h
      have habsent : db.inbox? uid = none := by simpa using hnone
      refine ⟨rfl, fun u => ?_⟩
      unfold inbox? at *
      rw [List.find?_append]
      by_cases hu : u = uid
      · subst hu
        rw [if_pos rfl, habsent, inboxOrNew, inbox?, habsent]
        simp
      · have hne : ¬ uid = u := fun heq => hu heq.symm
        simp [hu, hne]
    · cases h

/-- A row is stored with the next version of its inbox. -/
structure RowWritten (db db' : RtDatabase) (row : RtUserChannelRow) : Prop where
  sameChat : SameChat db db'
  version : row.inboxVersion.toNat = (db.inboxHead row.uid).toNat + 1
  inbox : ∀ u, db'.inbox? u =
    if u = row.uid then some { db.inboxOrNew row.uid with version := row.inboxVersion }
    else db.inbox? u
  rows : db'.userChannels = upsertRow RtUserChannelRow.place db.userChannels row

theorem userChannels_nextInboxVersion {next : UInt64}
    (h : db.nextInboxVersion uid = .ok (next, mid)) : mid.userChannels = db.userChannels := by
  obtain ⟨made, hmade, h⟩ := bind_eq_ok.mp h
  obtain ⟨_, _, h⟩ := bind_eq_ok.mp h
  cases h
  show made.userChannels = _
  rw [(ensureInbox_eq_ok hmade).1]

theorem RowWritten.of_next {next : UInt64} (h : db.nextInboxVersion uid = .ok (next, mid))
    (huid : row.uid = uid) (hversion : row.inboxVersion = next) :
    RowWritten db (mid.putUserChannel row) row := by
  subst huid hversion
  obtain ⟨made, hmade, h⟩ := bind_eq_ok.mp h
  obtain ⟨version, hnext, h⟩ := bind_eq_ok.mp h
  cases h
  obtain ⟨hsame, hinbox⟩ := ensureInbox_eq_ok hmade
  have hhead : made.inboxHead row.uid = db.inboxHead row.uid := by
    rw [inboxHead, hinbox, if_pos rfl]
    exact db.inboxOrNew_version row.uid
  refine ⟨?_, by rw [toNat_sqlNext hnext, hhead], ?_, ?_⟩
  · unfold SameChat putUserChannel updateInbox
    rw [hsame]
  · intro u
    refine (made.inbox?_updateInbox row.uid
      (fun before => { before with version := row.inboxVersion }) (fun _ => rfl) u).trans ?_
    rw [hinbox, hinbox, if_pos rfl]
    split
    · rfl
    · rfl
  · show upsertRow RtUserChannelRow.place made.userChannels row = _
    rw [hsame]

theorem RowWritten.userChannel (h : RowWritten db db' row) (uid : List UInt8) (id : RtChannelId) :
    db'.userChannel? uid id =
      if row.place = (uid, id) then some row else db.userChannel? uid id := by
  unfold userChannel?
  rw [h.rows]
  exact find?_upsertRow (uid, id)

theorem RowWritten.head {db db' : RtDatabase} {row : RtUserChannelRow} (h : RowWritten db db' row)
    (uid : List UInt8) :
    db'.inboxHead uid = if uid = row.uid then row.inboxVersion else db.inboxHead uid := by
  unfold inboxHead
  rw [h.inbox]
  split <;> rfl

theorem RowWritten.head_le (h : RowWritten db db' row) (uid : List UInt8) :
    (db.inboxHead uid).toNat ≤ (db'.inboxHead uid).toNat := by
  rw [h.head]
  split
  · rename_i huid
    subst huid
    have hversion := h.version
    omega
  · exact Nat.le_refl _

theorem userChannel?_place (h : db.userChannel? uid id = some row) : row.place = (uid, id) := by
  simpa using List.find?_some h

/-- The user can reach the channel, as far as the stored rows go. -/
def accessible (db : RtDatabase) (uid : List UInt8) (id : RtChannelId) : Bool :=
  (db.userChannel? uid id).any (·.accessible)

theorem accessible_eq_true :
    db.accessible uid id = true ↔
      ∃ row, db.userChannel? uid id = some row ∧ row.accessible = true := by
  unfold accessible
  cases db.userChannel? uid id <;> simp

theorem RowWritten.accessible_eq (h : RowWritten db db' row) (hplace : row.place = (uid, id))
    (u : List UInt8) (i : RtChannelId) :
    db'.accessible u i = if u = uid ∧ i = id then row.accessible else db.accessible u i := by
  unfold accessible
  rw [h.userChannel, hplace]
  by_cases hhere : u = uid ∧ i = id
  · obtain ⟨rfl, rfl⟩ := hhere
    simp
  · have hne : (uid, id) ≠ (u, i) := by
      intro heq
      obtain ⟨rfl, rfl⟩ := Prod.mk.inj heq
      exact hhere ⟨rfl, rfl⟩
    rw [if_neg hne, if_neg hhere]

/-- What the user has read of a channel, as far as the stored rows go. -/
def readThrough (db : RtDatabase) (uid : List UInt8) (id : RtChannelId) : UInt64 :=
  ((db.userChannel? uid id).map (·.readThrough)).getD 0

/-! ## Runs of writes -/

/-- A run of writes, each of a row that is allowed at its time. -/
def Writes (allowed : RtDatabase → RtUserChannelRow → Prop) : RtDatabase → RtDatabase → Prop :=
  ReflTransGen fun db db' => ∃ row, allowed db row ∧ RowWritten db db' row

section

variable {allowed : RtDatabase → RtUserChannelRow → Prop} {db db' : RtDatabase}

theorem Writes.refl (db : RtDatabase) : Writes allowed db db := ReflTransGen.refl

theorem Writes.single (hrow : allowed db row) (h : RowWritten db db' row) :
    Writes allowed db db' := ReflTransGen.single ⟨row, hrow, h⟩

theorem Writes.trans {db'' : RtDatabase} (h : Writes allowed db db')
    (h' : Writes allowed db' db'') : Writes allowed db db'' := ReflTransGen.trans h h'

theorem Writes.mono {allowed' : RtDatabase → RtUserChannelRow → Prop}
    (himp : ∀ db row, allowed db row → allowed' db row) (h : Writes allowed db db') :
    Writes allowed' db db' := by
  refine ReflTransGen.mono (fun a b => ?_) _ _ h
  rintro ⟨row, hrow, hwritten⟩
  exact ⟨row, himp a row hrow, hwritten⟩

section

variable (h : Writes allowed db db')
include h

/-- What each allowed write keeps, a run of them keeps. -/
theorem Writes.invariant {P : RtDatabase → Prop}
    (hstep : ∀ a b row, allowed a row → RowWritten a b row → P a → P b) (hstart : P db) :
    P db' := by
  induction h with
  | refl => exact hstart
  | tail _ hlast ih =>
    obtain ⟨row, hrow, hwritten⟩ := hlast
    exact hstep _ _ row hrow hwritten ih

theorem Writes.sameChat : SameChat db db' :=
  h.invariant (fun _ _ _ _ hwritten hsame => hsame.trans hwritten.sameChat) (SameChat.refl db)

theorem Writes.head_le (uid : List UInt8) :
    (db.inboxHead uid).toNat ≤ (db'.inboxHead uid).toNat :=
  h.invariant (P := fun b => (db.inboxHead uid).toNat ≤ (b.inboxHead uid).toNat)
    (fun _ _ _ _ hwritten hle => hle.trans (hwritten.head_le uid)) (Nat.le_refl _)

/-- A row that is not as before has a version that the inbox had not reached. -/
theorem Writes.changed (uid : List UInt8) (id : RtChannelId) :
    db'.userChannel? uid id = db.userChannel? uid id ∨
      ∃ row, db'.userChannel? uid id = some row ∧
        (db.inboxHead uid).toNat < row.inboxVersion.toNat := by
  induction h with
  | refl => exact .inl rfl
  | @tail mid last hrun hlast ih =>
    obtain ⟨row, _, hwritten⟩ := hlast
    have hle := Writes.head_le hrun uid
    rw [hwritten.userChannel]
    split
    · rename_i hplace
      obtain ⟨rfl, _⟩ := Prod.mk.inj hplace
      refine .inr ⟨row, rfl, ?_⟩
      have hversion := hwritten.version
      omega
    · exact ih

/-- Writes do not touch the walk of an inbox; an inbox that they make is dirty. -/
theorem Writes.walk {row' : RtInboxRow}
    (hrow : db'.inbox? uid = some row') (hclean : row'.reconcileDirty = false) :
    ∃ row, db.inbox? uid = some row ∧ row.reconcileDirty = false ∧
      row.reconcileAfter = row'.reconcileAfter := by
  induction h generalizing row' with
  | refl => exact ⟨row', hrow, hclean, rfl⟩
  | @tail mid last _ hlast ih =>
    obtain ⟨row, _, hwritten⟩ := hlast
    rw [hwritten.inbox] at hrow
    split at hrow
    · rename_i huid
      subst huid
      cases hrow
      unfold inboxOrNew at *
      cases hmid : mid.inbox? row.uid with
      | none =>
        rw [hmid] at hclean
        cases hclean
      | some before =>
        rw [hmid] at hclean
        obtain ⟨first, hfirst, hdirty, hafter⟩ := ih hmid hclean
        exact ⟨first, hfirst, hdirty, hafter⟩
    · exact ih hrow hclean

end

end

/-! ## Fanout -/

/-- The row has one of the given places, and its read pointer goes no further than to the limit. -/
structure Touches (places : List UInt8 → RtChannelId → Prop) (limit : UInt64) (db : RtDatabase)
    (row : RtUserChannelRow) : Prop where
  place : places row.uid row.channelId
  read : row.readThrough.toNat ≤
    max (db.readThrough row.uid row.channelId).toNat limit.toNat

theorem SameChat.symm_fields (h : SameChat db db') :
    db'.channels = db.channels ∧ db'.messages = db.messages ∧ db'.teamMembers = db.teamMembers ∧
      db'.teams = db.teams ∧ db'.host = db.host := by
  rw [h]
  exact ⟨rfl, rfl, rfl, rfl, rfl⟩

theorem stampUser_eq_ok {channel : RtChannelId}
    (h : stampUser channel sender sequence db uid = .ok db') :
    ∃ row, row.place = (uid, channel) ∧ row.accessible = true ∧
      row.readThrough.toNat ≤ max (db.readThrough uid channel).toNat sequence.toNat ∧
      RowWritten db db' row := by
  obtain ⟨⟨next, mid⟩, hnext, h⟩ := bind_eq_ok.mp h
  obtain ⟨read, hread, h⟩ := bind_eq_ok.mp h
  cases h
  have hlimit : read.toNat ≤ sequence.toNat := by
    rcases ite_eq_ok hread with ⟨_, hread⟩ | ⟨_, hread⟩
    · rw [(sqlInteger_eq_ok.mp hread).2]
    · cases hread
      exact Nat.zero_le _
  have hwritten {row : RtUserChannelRow} (huid : row.uid = uid)
    (hversion : row.inboxVersion = next) :
      RowWritten db (mid.putUserChannel row) row := RowWritten.of_next hnext huid hversion
  have hbefore : mid.readThrough uid channel = db.readThrough uid channel := by
    unfold readThrough userChannel?
    rw [userChannels_nextInboxVersion hnext]
  refine ⟨_, rfl, rfl, ?_, hwritten rfl rfl⟩
  show (max (mid.readThrough uid channel) read).toNat ≤ _
  rw [toNat_max, hbefore]
  omega

theorem stampUsers_eq_ok {channel : RtChannelId}
    (h : uids.foldlM (stampUser channel sender sequence) db = .ok db') :
    Writes (Touches (fun uid id => uid ∈ uids ∧ id = channel) sequence) db db' ∧
      ∀ uid id, db'.accessible uid id =
        (db.accessible uid id || decide (uid ∈ uids ∧ id = channel)) := by
  induction uids generalizing db with
  | nil =>
    cases h
    exact ⟨Writes.refl _, fun uid id => by simp⟩
  | cons first uids ih =>
    obtain ⟨mid, hmid, h⟩ := bind_eq_ok.mp h
    obtain ⟨hwrites, haccessible⟩ := ih h
    obtain ⟨row, hplace, hrow, hread, hwritten⟩ := stampUser_eq_ok hmid
    obtain ⟨huid, hid⟩ := Prod.mk.inj hplace
    have htouched : Touches (fun uid id => uid ∈ first :: uids ∧ id = channel) sequence db row := by
      refine ⟨⟨?_, hid⟩, ?_⟩
      · rw [huid]
        exact List.mem_cons_self
      · rw [huid, hid]
        exact hread
    refine ⟨(Writes.single htouched hwritten).trans (hwrites.mono ?_), ?_⟩
    · intro a row' htouch
      exact ⟨⟨List.mem_cons_of_mem _ htouch.place.1, htouch.place.2⟩, htouch.read⟩
    · intro uid id
      rw [haccessible, hwritten.accessible_eq hplace, hrow]
      by_cases hfirst : uid = first ∧ id = channel
      · simp [hfirst]
      · rw [if_neg hfirst]
        simp only [List.mem_cons, or_and_right, hfirst, false_or]

/-- Who is stamped gets a row with a version that their inbox had not reached. -/
theorem stampUsers_stamped {channel : RtChannelId}
    (h : uids.foldlM (stampUser channel sender sequence) db = .ok db') (huid : uid ∈ uids) :
    ∃ row, db'.userChannel? uid channel = some row ∧
      (db.inboxHead uid).toNat < row.inboxVersion.toNat := by
  induction uids generalizing db with
  | nil => cases huid
  | cons first uids ih =>
    obtain ⟨mid, hmid, hrest⟩ := bind_eq_ok.mp h
    obtain ⟨written, hplace, _, _, hwritten⟩ := stampUser_eq_ok hmid
    have hle := hwritten.head_le uid
    rcases List.mem_cons.mp huid with rfl | huid
    · obtain ⟨hwrittenUid, _⟩ := Prod.mk.inj hplace
      have hversion := hwritten.version
      rw [hwrittenUid] at hversion
      -- a later stamp of the same user only raises the version
      rcases (stampUsers_eq_ok hrest).1.changed uid channel with hsame | ⟨row, hrow, hlt⟩
      · refine ⟨written, ?_, by omega⟩
        rw [hsame, hwritten.userChannel, if_pos hplace]
      · exact ⟨row, hrow, by omega⟩
    · obtain ⟨row, hrow, hlt⟩ := ih hrest huid
      exact ⟨row, hrow, by omega⟩

theorem stamp_eq_ok {md : RtChannelMetadata} (h : db.stamp actor md sequence = .ok (uids, db')) :
    db.recipients md = .ok uids ∧
      Writes (Touches (fun uid id => uid ∈ uids ∧ id = md.id) sequence) db db' ∧
      (∀ uid id, db'.accessible uid id =
        (db.accessible uid id || decide (uid ∈ uids ∧ id = md.id))) ∧
      ∀ uid ∈ uids, ∃ row, db'.userChannel? uid md.id = some row ∧
        (db.inboxHead uid).toNat < row.inboxVersion.toNat := by
  obtain ⟨found, hfound, h⟩ := bind_eq_ok.mp h
  obtain ⟨last, hlast, h⟩ := bind_eq_ok.mp h
  cases h
  obtain ⟨hwrites, haccessible⟩ := stampUsers_eq_ok hlast
  exact ⟨hfound, hwrites, haccessible, fun uid huid => stampUsers_stamped hlast huid⟩

/-! ## Single rows -/

/-- At most the row of one user and channel is written. -/
abbrev WritesAt (uid : List UInt8) (id : RtChannelId) (limit : UInt64) :
    RtDatabase → RtDatabase → Prop :=
  Writes (Touches (fun u i => u = uid ∧ i = id) limit)

theorem readThrough_of_userChannel (h : db.userChannel? uid id = some row) :
    db.readThrough uid id = row.readThrough := by
  rw [readThrough, h]
  rfl

theorem accessible_of_userChannel (h : db.userChannel? uid id = some row) :
    db.accessible uid id = row.accessible := by
  rw [accessible, h]
  rfl

theorem RowWritten.writesAt (h : RowWritten db db' row) (hplace : row.place = (uid, id))
    {limit : UInt64}
    (hread : row.readThrough.toNat ≤ max (db.readThrough uid id).toNat limit.toNat) :
    WritesAt uid id limit db db' := by
  obtain ⟨huid, hid⟩ := Prod.mk.inj hplace
  refine Writes.single ⟨⟨huid, hid⟩, ?_⟩ h
  rw [huid, hid]
  exact hread

theorem insertUserChannel_eq_ok {readThrough : UInt64} {changed : Bool}
    (h : db.insertUserChannel uid id readThrough = .ok (changed, db')) :
    WritesAt uid id readThrough db db' ∧ ∀ u i, db'.accessible u i =
      (db.accessible u i || decide (u = uid ∧ i = id)) := by
  have hwrite {next read : UInt64} {mid : RtDatabase} {row : RtUserChannelRow}
      (hnext : db.nextInboxVersion uid = .ok (next, mid))
      (hinteger : sqlInteger readThrough = .ok read) (hplace : row.place = (uid, id))
      (hversion : row.inboxVersion = next) (haccessible : row.accessible = true)
      (hread : row.readThrough.toNat ≤ max (db.readThrough uid id).toNat read.toNat) :
      WritesAt uid id readThrough db (mid.putUserChannel row) ∧
        ∀ u i, (mid.putUserChannel row).accessible u i =
          (db.accessible u i || decide (u = uid ∧ i = id)) := by
    have hwritten : RowWritten db (mid.putUserChannel row) row :=
      RowWritten.of_next hnext (Prod.mk.inj hplace).1 hversion
    rw [(sqlInteger_eq_ok.mp hinteger).2] at hread
    refine ⟨hwritten.writesAt hplace hread, fun u i => ?_⟩
    rw [hwritten.accessible_eq hplace, haccessible]
    split <;> simp [*]
  unfold insertUserChannel at h
  split at h
  · obtain ⟨⟨next, mid⟩, hnext, h⟩ := bind_eq_ok.mp h
    obtain ⟨read, hinteger, h⟩ := bind_eq_ok.mp h
    cases h
    exact hwrite hnext hinteger rfl rfl rfl (Nat.le_max_right _ _)
  · rename_i row hrow
    rcases ite_eq_ok h with ⟨hopen, h⟩ | ⟨_, h⟩
    · cases h
      refine ⟨Writes.refl db, fun u i => ?_⟩
      by_cases hhere : u = uid ∧ i = id
      · obtain ⟨rfl, rfl⟩ := hhere
        simp [accessible_of_userChannel hrow, hopen]
      · simp [hhere]
    · obtain ⟨⟨next, mid⟩, hnext, h⟩ := bind_eq_ok.mp h
      obtain ⟨read, hinteger, h⟩ := bind_eq_ok.mp h
      cases h
      have hplace := userChannel?_place hrow
      refine hwrite hnext hinteger ?_ rfl rfl ?_
      · exact hplace
      · show (max row.readThrough read).toNat ≤ _
        rw [toNat_max, readThrough_of_userChannel hrow]

theorem removeUserChannel_eq_ok {changed : Bool}
    (h : db.removeUserChannel uid id = .ok (changed, db')) :
    WritesAt uid id 0 db db' ∧ ∀ u i, db'.accessible u i =
      (db.accessible u i && !decide (u = uid ∧ i = id)) := by
  have hkept (hclosed : db.accessible uid id = false) (u : List UInt8) (i : RtChannelId) :
      db.accessible u i = (db.accessible u i && !decide (u = uid ∧ i = id)) := by
    by_cases hhere : u = uid ∧ i = id
    · obtain ⟨rfl, rfl⟩ := hhere
      simp [hclosed]
    · simp [hhere]
  unfold removeUserChannel at h
  split at h
  · rename_i hrow
    cases h
    exact ⟨Writes.refl db, hkept (by rw [accessible, hrow]; rfl)⟩
  · rename_i row hrow
    rcases ite_eq_ok h with ⟨hclosed, h⟩ | ⟨_, h⟩
    · cases h
      refine ⟨Writes.refl db, hkept ?_⟩
      rw [accessible_of_userChannel hrow]
      simpa using hclosed
    · obtain ⟨⟨next, mid⟩, hnext, h⟩ := bind_eq_ok.mp h
      cases h
      have hplace := userChannel?_place hrow
      have hwritten : RowWritten db (mid.putUserChannel
          { row with inboxVersion := next, accessible := false })
          { row with inboxVersion := next, accessible := false } :=
        RowWritten.of_next hnext (Prod.mk.inj hplace).1 rfl
      refine ⟨hwritten.writesAt hplace ?_, fun u i => ?_⟩
      · rw [readThrough_of_userChannel hrow]
        exact Nat.le_max_left _ _
      · rw [hwritten.accessible_eq hplace]
        split <;> simp [*]

theorem moveReadThrough_eq_ok {read : RtReadThrough} {changed : Bool}
    (h : db.moveReadThrough uid read = .ok (changed, db')) :
    WritesAt uid read.channel read.sequence db db' ∧ ∀ u i, db'.accessible u i =
      (db.accessible u i || decide (u = uid ∧ i = read.channel)) := by
  unfold moveReadThrough at h
  split at h
  · rename_i row hrow
    have hopen (haccessible : row.accessible = true) (u : List UInt8) (i : RtChannelId) :
        db.accessible u i = (db.accessible u i || decide (u = uid ∧ i = read.channel)) := by
      by_cases hhere : u = uid ∧ i = read.channel
      · obtain ⟨rfl, rfl⟩ := hhere
        simp [accessible_of_userChannel hrow, haccessible]
      · simp [hhere]
    rcases ite_eq_ok h with ⟨_, h⟩ | ⟨haccessible, h⟩
    · exact insertUserChannel_eq_ok h
    · have haccessible : row.accessible = true := by simpa using haccessible
      rcases ite_eq_ok h with ⟨_, h⟩ | ⟨_, h⟩
      · obtain ⟨⟨next, mid⟩, hnext, h⟩ := bind_eq_ok.mp h
        obtain ⟨sequence, hinteger, h⟩ := bind_eq_ok.mp h
        cases h
        obtain ⟨_, rfl⟩ := sqlInteger_eq_ok.mp hinteger
        have hplace := userChannel?_place hrow
        have hwritten : RowWritten db (mid.putUserChannel
            { row with inboxVersion := next, readThrough := read.sequence })
            { row with inboxVersion := next, readThrough := read.sequence } :=
          RowWritten.of_next hnext (Prod.mk.inj hplace).1 rfl
        refine ⟨hwritten.writesAt hplace (Nat.le_max_right _ _), fun u i => ?_⟩
        rw [hwritten.accessible_eq hplace]
        split
        · rename_i hhere
          simp [hhere, haccessible]
        · rename_i hother
          simp [hother]
      · cases h
        exact ⟨Writes.refl db, hopen haccessible⟩
  · exact insertUserChannel_eq_ok h

/-! ## The walk of a reconciliation -/

/-- `membership_role` gives the user a role that can read the channel. -/
def Readable (db : RtDatabase) (uid : List UInt8) (channel : RtChannelRow) : Prop :=
  ∃ role policy, db.membershipRole uid channel.team = .ok (some role) ∧
    ChannelPolicy.new channel.metadata = .ok policy ∧ policy.canRead role = true

theorem project_team (channel : RtChannelRow) :
    channel.project.team.entity.bytes = channel.team := by
  unfold RtChannelRow.project RtChannelRow.team
  split <;> rfl

theorem project_id (channel : RtChannelRow) : channel.project.id = channel.id := by
  unfold RtChannelRow.project RtChannelRow.id
  split <;> rfl

theorem new_project (channel : RtChannelRow) :
    ChannelPolicy.new channel.project = ChannelPolicy.new channel.metadata := by
  unfold RtChannelRow.project ChannelPolicy.new floor
  split <;> rfl

theorem isReadable_eq_ok {readable : Bool} (h : db.isReadable uid channel.project = .ok readable) :
    readable = true ↔ db.Readable uid channel := by
  unfold isReadable at h
  rw [project_team, new_project] at h
  obtain ⟨access, haccess, h⟩ := bind_eq_ok.mp h
  unfold Readable
  cases access with
  | none =>
    cases h
    simp [haccess]
  | some role =>
    obtain ⟨policy, hpolicy, hread⟩ := map_eq_ok.mp h
    simp [haccess, hpolicy, hread]

theorem SameChat.membershipRole (h : SameChat db db') (uid team : List UInt8) :
    db'.membershipRole uid team = db.membershipRole uid team := by
  rw [h]
  rfl

theorem SameChat.readable (h : SameChat db db') (uid : List UInt8) (channel : RtChannelRow) :
    db'.Readable uid channel ↔ db.Readable uid channel := by
  unfold Readable
  rw [h.membershipRole]

theorem setUserChannel_eq_ok {readable changed : Bool}
    (h : db.setUserChannel uid id readable = .ok (changed, db')) :
    WritesAt uid id 0 db db' ∧
      ∀ u i, db'.accessible u i = if u = uid ∧ i = id then readable else db.accessible u i := by
  rcases ite_eq_ok h with ⟨hreadable, h⟩ | ⟨hreadable, h⟩
  · obtain ⟨hwrites, haccessible⟩ := insertUserChannel_eq_ok h
    refine ⟨hwrites, fun u i => ?_⟩
    split <;> simp [*]
  · obtain ⟨hwrites, haccessible⟩ := removeUserChannel_eq_ok h
    refine ⟨hwrites, fun u i => ?_⟩
    have hclosed : readable = false := by simpa using hreadable
    split <;> simp [*]

/-- After a page of the walk the rows of its channels are exact, and all others are as before. -/
theorem reconcileChannels_eq_ok {page : List RtChannelRow} {changes : Nat} {last : Nat × RtDatabase}
    (h : page.foldlM (reconcileChannel uid) (changes, db) = .ok last) :
    Writes (Touches (fun u i => u = uid ∧ ∃ channel ∈ page, channel.id = i) 0) db last.2 ∧
      (∀ u i, ¬ (u = uid ∧ ∃ channel ∈ page, channel.id = i) →
        last.2.accessible u i = db.accessible u i) ∧
      (Keyed RtChannelRow.id page →
        ∀ channel ∈ page, last.2.accessible uid channel.id = true ↔ db.Readable uid channel) := by
  induction page generalizing changes db with
  | nil =>
    cases h
    exact ⟨Writes.refl _, fun _ _ _ => rfl, fun _ channel hchannel => nomatch hchannel⟩
  | cons first page ih =>
    obtain ⟨⟨changed, mid⟩, hfirst, h⟩ := bind_eq_ok.mp h
    obtain ⟨readable, hreadable, hfirst⟩ := bind_eq_ok.mp hfirst
    obtain ⟨⟨bit, made⟩, hset, hfirst⟩ := bind_eq_ok.mp hfirst
    cases hfirst
    obtain ⟨hwrites, haccessible⟩ := setUserChannel_eq_ok hset
    obtain ⟨hrest, hothers, hexact⟩ := ih h
    refine ⟨?_, ?_, ?_⟩
    · refine (hwrites.mono ?_).trans (hrest.mono ?_)
      · rintro a row ⟨⟨huid, hid⟩, hread⟩
        exact ⟨⟨huid, first, List.mem_cons_self, hid.symm⟩, hread⟩
      · rintro a row ⟨⟨huid, channel, hchannel, hid⟩, hread⟩
        exact ⟨⟨huid, channel, List.mem_cons_of_mem _ hchannel, hid⟩, hread⟩
    · intro u i hnone
      rw [hothers u i, haccessible, if_neg]
      · rintro ⟨rfl, rfl⟩
        exact hnone ⟨rfl, first, List.mem_cons_self, rfl⟩
      · rintro ⟨rfl, channel, hchannel, hid⟩
        exact hnone ⟨rfl, channel, List.mem_cons_of_mem _ hchannel, hid⟩
    · intro hkeyed channel hchannel
      obtain ⟨hfresh, hkeyed⟩ := List.nodup_cons.mp hkeyed
      rcases List.mem_cons.mp hchannel with rfl | hchannel
      · -- the rest of the page has other channels, so it leaves the first row alone
        have hlater : ¬ (uid = uid ∧ ∃ other ∈ page, other.id = channel.id) := by
          rintro ⟨_, other, hother, hid⟩
          exact hfresh (List.mem_map.mpr ⟨other, hother, hid⟩)
        rw [hothers uid channel.id hlater, haccessible, if_pos ⟨rfl, rfl⟩]
        exact isReadable_eq_ok hreadable
      · rw [hexact hkeyed channel hchannel]
        exact hwrites.sameChat.readable uid channel

/-! ## The four writes of chat -/

theorem checkActor_eq_ok (h : db.checkActor actor now = .ok ()) :
    actor.uid.head? = some entityUser := by
  obtain ⟨_, h⟩ := ite_error_eq_ok.mp h
  obtain ⟨hcredential, _⟩ := ite_error_eq_ok.mp h
  by_contra hne
  exact hcredential (.inr (.inl hne))

theorem authorize_eq_ok {role : Role} : db.authorize actor team now = .ok role ↔
      db.checkActor actor now = .ok () ∧ db.membershipRole actor.uid team = .ok (some role) := by
  constructor
  · intro h
    obtain ⟨_, hactor, h⟩ := bind_eq_ok.mp h
    obtain ⟨access, haccess, h⟩ := bind_eq_ok.mp h
    rw [okOr_eq_ok.mp h] at haccess
    exact ⟨hactor, haccess⟩
  · rintro ⟨hactor, hrole⟩
    exact bind_eq_ok.mpr ⟨(), hactor, bind_eq_ok.mpr ⟨some role, hrole, rfl⟩⟩

theorem membershipRole_eq_some {role : Role} (h : db.membershipRole uid team = .ok (some role)) :
    ∃ row ∈ db.teamMembers, row.teamId = team ∧ db.isChatTeam team = true ∧ row.partyId = uid ∧
      row.isLocal db.host = true ∧ storedRole row.roleType row.visibility = .ok role := by
  unfold membershipRole at h
  split at h
  · rename_i row hrow
    obtain ⟨role', hrole, heq⟩ := map_eq_ok.mp h
    cases heq
    have hfound := List.find?_some hrow
    simp only [Bool.and_eq_true, decide_eq_true_eq] at hfound
    obtain ⟨⟨⟨hteam, hchat⟩, hparty⟩, hlocal⟩ := hfound
    exact ⟨row, List.mem_of_find?_eq_some hrow, hteam, hchat, hparty, hlocal, hrole⟩
  · cases h

/-- A channel was created: `mid` has its row, and then its readers are stamped. -/
structure ChannelCreated (db mid db' : RtDatabase) (channel : RtChannelRow)
    (uids : List (List UInt8)) : Prop where
  fresh : ∀ row ∈ db.channels, row.id ≠ channel.id ∧ row.id.short ≠ channel.id.short
  inserted : mid = { db with channelSets := mid.channelSets, channels := db.channels ++ [channel] }
  blank : channel.lastMessage = none ∧ channel.lastSequence = 0
  team : db.isChatTeam channel.team = true
  recipients : mid.recipients channel.metadata = .ok uids
  writes : Writes (Touches (fun uid id => uid ∈ uids ∧ id = channel.id) 0) mid db'
  accessible : ∀ uid id, db'.accessible uid id =
    (mid.accessible uid id || decide (uid ∈ uids ∧ id = channel.id))

theorem insertChannel_eq_ok {md : RtChannelMetadata} {setVersion : UInt64} {format : Nat}
    (h : db.insertChannel md setVersion format = .ok mid) :
    (∀ row ∈ db.channels, row.id ≠ md.id ∧ row.id.short ≠ md.id.short) ∧
      mid = { db with
        channelSets := mid.channelSets, channels := db.channels ++ [⟨md, format, none, 0⟩] } := by
  obtain ⟨hfresh, h⟩ := ite_error_eq_ok.mp h
  obtain ⟨_, _, h⟩ := bind_eq_ok.mp h
  obtain ⟨_, _, h⟩ := bind_eq_ok.mp h
  obtain ⟨_, h⟩ := ite_error_eq_ok.mp h
  obtain ⟨_, h⟩ := ite_error_eq_ok.mp h
  obtain ⟨_, _, h⟩ := bind_eq_ok.mp h
  cases h
  refine ⟨fun row hrow => ?_, rfl⟩
  simp only [List.any_eq_true, Bool.or_eq_true, decide_eq_true_eq, not_exists, not_and,
    not_or] at hfresh
  exact hfresh row hrow

theorem rtCreateChannelWithFormat_cases {arg : RtCreateChannelArgument} {format : Nat}
    {commit : RealtimeCommit Unit}
    (h : db.rtCreateChannelWithFormat actor arg now format = .ok (commit, db')) :
    ∃ mid channel uids, ChannelCreated db mid db' channel uids := by
  obtain ⟨_, h⟩ := ite_error_eq_ok.mp h
  obtain ⟨_, _, h⟩ := bind_eq_ok.mp h
  obtain ⟨_, _, h⟩ := bind_eq_ok.mp h
  obtain ⟨_, h⟩ := ite_error_eq_ok.mp h
  obtain ⟨access, haccess, h⟩ := bind_eq_ok.mp h
  obtain ⟨_, _, h⟩ := bind_eq_ok.mp h
  obtain ⟨_, _, h⟩ := bind_eq_ok.mp h
  obtain ⟨_, _, h⟩ := bind_eq_ok.mp h
  obtain ⟨mid, hmid, h⟩ := bind_eq_ok.mp h
  obtain ⟨⟨uids, last⟩, hstamp, h⟩ := bind_eq_ok.mp h
  cases h
  obtain ⟨_, _, _, hchat, _⟩ := membershipRole_eq_some (authorize_eq_ok.mp haccess).2
  obtain ⟨hfresh, hrows⟩ := insertChannel_eq_ok hmid
  obtain ⟨hrecipients, hwrites, haccessible, _⟩ := stamp_eq_ok hstamp
  refine ⟨mid, ⟨{ arg.metadata with ctime := now / 1000, mtime := now / 1000 }, format, none, 0⟩,
    uids, ?_⟩
  exact ⟨hfresh, hrows, ⟨rfl, rfl⟩, hchat, hrecipients, hwrites, haccessible⟩

/-- What every stored message row is: the message as it is served, and its columns. -/
structure StoredMessage (row : RtMessageRow) : Prop where
  id : row.message.metadata.id = row.messageId
  sequence : row.message.sequence = row.sequence
  small : row.sequence.toNat < 2 ^ 63
  sender : row.message.sender.isSome = true
  pointer : row.message.metadata.previousSequence = 0 ↔
    row.message.metadata.previousId = .replicate 16 0

theorem checkSend_eq_ok (h : checkSend send = .ok box) : send.metadata.previousSequence = 0 ↔
    send.metadata.previousId = .replicate 16 0 := by
  obtain ⟨_, _, h⟩ := bind_eq_ok.mp h
  split at h
  · cases h
  · obtain ⟨hbasic, h⟩ := ite_error_eq_ok.mp h
    simp only [not_or, not_not] at hbasic
    exact hbasic.2.2.2.2

theorem messageRow_eq_ok {envelope : List UInt8} {insertTime : UInt64} {row : RtMessageRow}
    (hsend : checkSend send = .ok box)
    (h : messageRow actor send id envelope sequence insertTime = .ok row) :
    StoredMessage row ∧ row.messageId = send.metadata.id ∧ row.channelId = id ∧
      row.sequence = sequence ∧ row.sender = actor.uid ∧ row.envelope = envelope ∧
      row.insertTime = insertTime ∧ row.message.metadata = send.metadata := by
  obtain ⟨entity, -, h⟩ := bind_eq_ok.mp h
  obtain ⟨party, -, h⟩ := bind_eq_ok.mp h
  obtain ⟨_, -, h⟩ := bind_eq_ok.mp h
  obtain ⟨-, h⟩ := ite_error_eq_ok.mp h
  obtain ⟨stored, hstored, h⟩ := bind_eq_ok.mp h
  obtain ⟨time, htime, h⟩ := bind_eq_ok.mp h
  cases h
  obtain ⟨hsmall, rfl⟩ := sqlInteger_eq_ok.mp hstored
  obtain ⟨_, rfl⟩ := sqlInteger_eq_ok.mp htime
  exact ⟨⟨rfl, rfl, hsmall, rfl, checkSend_eq_ok hsend⟩, rfl, rfl, rfl, rfl, rfl, rfl, rfl⟩

/-- The channel with a message at its end. -/
def withLast (row : RtMessageRow) (channel : RtChannelRow) : RtChannelRow :=
  if channel.id = row.channelId then
    { channel with
      lastSequence := row.sequence
      lastMessage := some ⟨row.sequence, row.message.metadata.kind, row.insertTime,
        row.message.sender, none⟩ }
  else channel

theorem withLast_metadata (row : RtMessageRow) (channel : RtChannelRow) :
    (withLast row channel).metadata = channel.metadata ∧
      (withLast row channel).format = channel.format := by
  unfold withLast
  split <;> exact ⟨rfl, rfl⟩

theorem insertMessage_eq_ok {row : RtMessageRow} (h : db.insertMessage row = .ok mid) :
    mid = { db with
      messages := db.messages ++ [row], channels := db.channels.map (withLast row) } := by
  obtain ⟨_, h⟩ := ite_error_eq_ok.mp h
  obtain ⟨_, _, h⟩ := bind_eq_ok.mp h
  obtain ⟨_, h⟩ := ite_error_eq_ok.mp h
  cases h
  rfl

/-- A message went to the end of its channel: `mid` has its row, and then the readers of the channel
    are stamped. -/
structure MessageAppended (db mid db' : RtDatabase) (channel : RtChannelRow) (row : RtMessageRow)
    (uids : List (List UInt8)) : Prop where
  known : channel ∈ db.channels
  team : db.isChatTeam channel.team = true
  fresh : ∀ old ∈ db.messages, old.messageId ≠ row.messageId
  place : row.channelId = channel.id
  sequence : row.sequence.toNat = channel.lastSequence.toNat + 1
  stored : StoredMessage row
  previous : row.message.metadata.previousSequence ≠ 0 → ∃ old,
    db.messageAt? channel.id row.message.metadata.previousSequence = some old ∧
      old.messageId = row.message.metadata.previousId
  inserted : mid = { db with
    messages := db.messages ++ [row], channels := db.channels.map (withLast row) }
  recipients : mid.recipients channel.project = .ok uids
  writes : Writes (Touches (fun uid id => uid ∈ uids ∧ id = channel.id) row.sequence) mid db'
  accessible : ∀ uid id, db'.accessible uid id =
    (mid.accessible uid id || decide (uid ∈ uids ∧ id = channel.id))
  stamped : ∀ uid ∈ uids, ∃ written, db'.userChannel? uid channel.id = some written ∧
    (mid.inboxHead uid).toNat < written.inboxVersion.toNat

theorem checkPrevious_eq_ok (h : db.checkPrevious id send = .ok ())
    (hpointer : send.metadata.previousSequence ≠ 0) :
    ∃ old, db.messageAt? id send.metadata.previousSequence = some old ∧
      old.messageId = send.metadata.previousId := by
  unfold checkPrevious at h
  rw [if_neg hpointer] at h
  obtain ⟨previous, hprevious, h⟩ := bind_eq_ok.mp h
  obtain ⟨_, rfl⟩ := sqlInteger_eq_ok.mp hprevious
  obtain ⟨hfound, _⟩ := ite_error_eq_ok.mp h
  exact Option.map_eq_some_iff.mp (not_not.mp hfound)

theorem sendChannel_eq_ok : db.sendChannel actor send box now = .ok channel ↔
      db.channels.find? (fun row => row.id.short = send.channel) = some channel ∧
      db.checkActor actor now = .ok () ∧ (∃ role policy,
        db.membershipRole actor.uid channel.team = .ok (some role) ∧
        ChannelPolicy.new channel.metadata = .ok policy ∧ policy.requireWrite role = .ok ()) ∧
      db.requireBasic channel.id = .ok () ∧ box.key.role = channel.project.roles.read := by
  constructor
  · intro h
    obtain ⟨row, hrow, h⟩ := bind_eq_ok.mp h
    obtain ⟨role, hrole, h⟩ := bind_eq_ok.mp h
    obtain ⟨policy, hpolicy, h⟩ := bind_eq_ok.mp h
    obtain ⟨_, hwrite, h⟩ := bind_eq_ok.mp h
    obtain ⟨_, hbasic, h⟩ := bind_eq_ok.mp h
    obtain ⟨hbox, h⟩ := ite_error_eq_ok.mp h
    cases h
    rw [project_team] at hrole
    rw [new_project] at hpolicy
    rw [project_id] at hbasic
    obtain ⟨hactor, hrole⟩ := authorize_eq_ok.mp hrole
    exact ⟨okOr_eq_ok.mp hrow, hactor, ⟨role, policy, hrole, hpolicy, hwrite⟩, hbasic,
      not_not.mp hbox⟩
  · rintro ⟨hrow, hactor, ⟨role, policy, hrole, hpolicy, hwrite⟩, hbasic, hbox⟩
    refine bind_eq_ok.mpr ⟨channel, okOr_eq_ok.mpr hrow, ?_⟩
    refine bind_eq_ok.mpr ⟨role, ?_, bind_eq_ok.mpr ⟨policy, ?_, bind_eq_ok.mpr ⟨(), hwrite,
      bind_eq_ok.mpr ⟨(), ?_, ite_error_eq_ok.mpr ⟨not_not.mpr hbox, rfl⟩⟩⟩⟩⟩
    · rw [project_team]
      exact authorize_eq_ok.mpr ⟨hactor, hrole⟩
    · rw [new_project]
      exact hpolicy
    · rw [project_id]
      exact hbasic

/-- A send finds its message stored and changes nothing, or appends it. -/
theorem rtSend_cases {commit : RealtimeCommit ChatSendReceipt}
    (h : db.rtSend actor send now = .ok (commit, db')) :
    ∃ box channel envelope row, checkSend send = .ok box ∧
      db.sendChannel actor send box now = .ok channel ∧ (identity send).encoded = .ok envelope ∧
      row.messageId = send.metadata.id ∧ row.channelId = channel.id ∧ row.sender = actor.uid ∧
      row.envelope = envelope ∧ commit.value = ⟨row.sequence, row.insertTime⟩ ∧
      ((row ∈ db.messages ∧ db' = db) ∨
        (row.message.metadata = send.metadata ∧
          ∃ mid uids, MessageAppended db mid db' channel row uids)) := by
  obtain ⟨box, hbox, h⟩ := bind_eq_ok.mp h
  obtain ⟨channel, hchannel, h⟩ := bind_eq_ok.mp h
  obtain ⟨envelope, henvelope, h⟩ := bind_eq_ok.mp h
  unfold storeMessage at h
  split at h
  · rename_i old hold
    obtain ⟨hsame, h⟩ := ite_error_eq_ok.mp h
    cases h
    simp only [not_or, not_not] at hsame
    have hid : old.messageId = send.metadata.id := by simpa using List.find?_some hold
    exact ⟨box, channel, envelope, old, hbox, hchannel, protoValue_eq_ok.mp henvelope, hid, hsame.1,
      hsame.2.1, hsame.2.2, rfl, .inl ⟨List.mem_of_find?_eq_some hold, rfl⟩⟩
  · rename_i hnew
    obtain ⟨_, _, h⟩ := bind_eq_ok.mp h
    obtain ⟨_, _, h⟩ := bind_eq_ok.mp h
    obtain ⟨_, hprevious, h⟩ := bind_eq_ok.mp h
    obtain ⟨sequence, hsequence, h⟩ := bind_eq_ok.mp h
    obtain ⟨row, hrow, h⟩ := bind_eq_ok.mp h
    obtain ⟨mid, hmid, h⟩ := bind_eq_ok.mp h
    obtain ⟨⟨uids, last⟩, hstamp, h⟩ := bind_eq_ok.mp h
    cases h
    obtain ⟨hstored, hid, hplace, rfl, hsender, hrowEnvelope, htime, hmetadata⟩ :=
      messageRow_eq_ok hbox hrow
    obtain ⟨hfind, _, ⟨_, _, hrole, _, _⟩, _⟩ := sendChannel_eq_ok.mp hchannel
    obtain ⟨_, _, _, hchat, _⟩ := membershipRole_eq_some hrole
    obtain ⟨hrecipients, hwrites, haccessible, hstamped⟩ := stamp_eq_ok hstamp
    rw [project_id] at hwrites haccessible hstamped
    refine ⟨box, channel, envelope, row, hbox, hchannel, protoValue_eq_ok.mp henvelope, hid, hplace,
      hsender, hrowEnvelope, by rw [htime], .inr ⟨hmetadata, mid, uids, ?_⟩⟩
    refine ⟨List.mem_of_find?_eq_some hfind, hchat, fun old hold => ?_, hplace,
      toNat_sqlNext hsequence, hstored, fun hpointer => ?_, insertMessage_eq_ok hmid,
      hrecipients, hwrites, haccessible, hstamped⟩
    · have hother := List.find?_eq_none.mp hnew old hold
      rw [hid]
      simpa using hother
    · rw [hmetadata] at hpointer ⊢
      exact checkPrevious_eq_ok hprevious hpointer

/-- A read pointer was moved to a message that exists, by a reader of its channel. -/
structure ReadMoved (db db' : RtDatabase) (uid : List UInt8) (read : RtReadThrough) : Prop where
  isUser : uid.head? = some entityUser
  readable : ∃ channel, db.channelRow? read.channel = some channel ∧ db.Readable uid channel
  message : ∃ row, db.messageAt? read.channel read.sequence = some row
  writes : WritesAt uid read.channel read.sequence db db'
  accessible : ∀ u i, db'.accessible u i =
    (db.accessible u i || decide (u = uid ∧ i = read.channel))

theorem requireRead_eq_ok (h : db.requireRead actor channel.project now = .ok ()) :
    actor.uid.head? = some entityUser ∧ db.Readable actor.uid channel := by
  obtain ⟨role, hrole, h⟩ := bind_eq_ok.mp h
  obtain ⟨policy, hpolicy, h⟩ := bind_eq_ok.mp h
  rw [project_team] at hrole
  rw [new_project] at hpolicy
  obtain ⟨hactor, hrole⟩ := authorize_eq_ok.mp hrole
  refine ⟨checkActor_eq_ok hactor, role, policy, hrole, hpolicy, ?_⟩
  rcases ite_eq_ok h with ⟨hread, _⟩ | ⟨_, h⟩
  · exact hread
  · cases h

theorem rtReadThrough_cases {read : RtReadThrough} {commit : RealtimeCommit Unit}
    (h : db.rtReadThrough actor read now = .ok (commit, db')) :
    ReadMoved db db' actor.uid read := by
  obtain ⟨_, h⟩ := ite_error_eq_ok.mp h
  obtain ⟨md, hmd, h⟩ := bind_eq_ok.mp h
  obtain ⟨_, hrequire, h⟩ := bind_eq_ok.mp h
  obtain ⟨_, _, h⟩ := bind_eq_ok.mp h
  obtain ⟨sequence, hsequence, h⟩ := bind_eq_ok.mp h
  obtain ⟨hmessage, h⟩ := ite_error_eq_ok.mp h
  obtain ⟨⟨changed, last⟩, hmove, h⟩ := bind_eq_ok.mp h
  cases h
  obtain ⟨_, rfl⟩ := sqlInteger_eq_ok.mp hsequence
  obtain ⟨channel, hchannel, rfl⟩ := Option.map_eq_some_iff.mp (okOr_eq_ok.mp hmd)
  obtain ⟨huser, hreadable⟩ := requireRead_eq_ok hrequire
  obtain ⟨hwrites, haccessible⟩ := moveReadThrough_eq_ok hmove
  have hexists : ∃ row, db.messageAt? read.channel read.sequence = some row := by
    simpa [Option.isNone_iff_eq_none, Option.ne_none_iff_exists'] using hmessage
  exact ⟨huser, ⟨channel, hchannel, hreadable⟩, hexists, hwrites, haccessible⟩

/-- A page of a walk: from `after` on, the rows of the channels of the page are made exact, and the
    cursor goes to the last of them, or away when no candidate is left. -/
structure PageWalked (db db' : RtDatabase) (uid : List UInt8) (after : Option RtChannelId)
    (page : List RtChannelRow) (cursor : Option RtChannelId) : Prop where
  inboxKnown : ∃ row, db.inbox? uid = some row ∧
    (after = none ∨ row.reconcileDirty = false ∧ row.reconcileAfter = after)
  page_eq : page = (db.candidates uid after).take page.length
  cursor_eq : (cursor = none ∧ page = db.candidates uid after) ∨
    ∃ channel, page.getLast? = some channel ∧ cursor = some channel.id
  walked : ∃ mid changes, page.foldlM (reconcileChannel uid) (0, db) = .ok (changes, mid) ∧
    db' = mid.updateInbox uid fun row =>
      { row with reconcileDirty := false, reconcileAfter := cursor }

theorem reconcileFrom_eq_ok {restarted : Bool} {after : Option RtChannelId} {pageSize : Nat}
    {row : RtInboxRow} (hinbox : db.inbox? uid = some row)
    (hafter : after = none ∨ row.reconcileDirty = false ∧ row.reconcileAfter = after)
    (hsize : pageSize ≠ 0) (h : db.reconcileFrom uid restarted after pageSize = .ok (commit, db')) :
    ∃ page cursor, PageWalked db db' uid after page cursor := by
  obtain ⟨⟨changes, mid⟩, hwalk, h⟩ := bind_eq_ok.mp h
  cases h
  have hpage : ((db.candidates uid after).take (pageSize + 1)).take pageSize =
      (db.candidates uid after).take pageSize := by
    rw [List.take_take, Nat.min_eq_left (Nat.le_succ _)]
  refine ⟨_, _, ⟨row, hinbox, hafter⟩, ?_, ?_, mid, changes, hwalk, rfl⟩
  · rw [hpage, List.length_take]
    rcases Nat.le_total pageSize (db.candidates uid after).length with hle | hle
    · rw [Nat.min_eq_left hle]
    · rw [Nat.min_eq_right hle, List.take_length, List.take_of_length_le hle]
  · rw [hpage]
    by_cases hmore : pageSize < ((db.candidates uid after).take (pageSize + 1)).length
    · -- a page that is not the last is full, so it has a last channel
      refine .inr ?_
      have hlong : pageSize < (db.candidates uid after).length := by
        rw [List.length_take] at hmore
        omega
      have hne : (db.candidates uid after).take pageSize ≠ [] := by
        intro hempty
        have hlength := congrArg List.length hempty
        rw [List.length_take, List.length_nil] at hlength
        omega
      refine ⟨_, List.getLast?_eq_some_getLast hne, ?_⟩
      rw [if_pos hmore, List.getLast?_eq_some_getLast hne]
      rfl
    · refine .inl ⟨if_neg hmore, ?_⟩
      rw [List.length_take] at hmore
      exact List.take_of_length_le (by omega)

/-- A page leaves a clean inbox alone, or walks on. -/
theorem rtReconcileInboxPage_cases {pageSize : Nat}
    (h : db.rtReconcileInboxPage actor now pageSize = .ok (commit, db')) :
    actor.uid.head? = some entityUser ∧ ∃ mid, db.ensureInbox actor.uid = .ok mid ∧
      (db' = mid ∨ ∃ after page cursor, PageWalked mid db' actor.uid after page cursor) := by
  obtain ⟨hsize, h⟩ := ite_error_eq_ok.mp h
  obtain ⟨_, hactor, h⟩ := bind_eq_ok.mp h
  obtain ⟨mid, hmid, h⟩ := bind_eq_ok.mp h
  refine ⟨checkActor_eq_ok hactor, mid, hmid, ?_⟩
  have hsome : mid.inbox? actor.uid = some (db.inboxOrNew actor.uid) := by
    rw [(ensureInbox_eq_ok hmid).2, if_pos rfl]
  have hstate : mid.inboxState actor.uid = ((db.inboxOrNew actor.uid).version,
      reconcileState (db.inboxOrNew actor.uid), (db.inboxOrNew actor.uid).reconcileAfter) := by
    unfold inboxState
    rw [hsome]
  rw [hstate] at h
  have hpositive : pageSize ≠ 0 := fun hzero => hsize (.inl hzero)
  unfold reconcileState at h
  by_cases hdirty : (db.inboxOrNew actor.uid).reconcileDirty = true
  · rw [if_pos hdirty] at h
    obtain ⟨page, cursor, hwalked⟩ := reconcileFrom_eq_ok hsome (.inl rfl) hpositive h
    exact .inr ⟨none, page, cursor, hwalked⟩
  · have hclean : (db.inboxOrNew actor.uid).reconcileDirty = false := by simpa using hdirty
    rw [if_neg hdirty] at h
    by_cases hcursor : (db.inboxOrNew actor.uid).reconcileAfter.isSome = true
    · rw [if_pos hcursor] at h
      obtain ⟨page, cursor, hwalked⟩ :=
        reconcileFrom_eq_ok hsome (.inr ⟨hclean, rfl⟩) hpositive h
      exact .inr ⟨_, page, cursor, hwalked⟩
    · rw [if_neg hcursor] at h
      cases h
      exact .inl rfl

/-! ## Runs -/

/-- One step of the database: a chat write, a change of a roster or of a team with its triggers, or
    a change of what chat only reads. -/
inductive Step (db : RtDatabase) : RtDatabase → Prop where
  | create {actor : RealtimeActor} {arg : RtCreateChannelArgument} {now : UInt64} {format : Nat}
      {commit : RealtimeCommit Unit} {db' : RtDatabase}
      (h : db.rtCreateChannelWithFormat actor arg now format = .ok (commit, db')) : Step db db'
  | send {actor : RealtimeActor} {send : RtSend} {now : UInt64}
      {commit : RealtimeCommit ChatSendReceipt} {db' : RtDatabase}
      (h : db.rtSend actor send now = .ok (commit, db')) : Step db db'
  | readThrough {actor : RealtimeActor} {read : RtReadThrough} {now : UInt64}
      {commit : RealtimeCommit Unit} {db' : RtDatabase}
      (h : db.rtReadThrough actor read now = .ok (commit, db')) : Step db db'
  | reconcile {actor : RealtimeActor} {now : UInt64} {pageSize : Nat}
      {commit : RealtimeCommit RealtimeReconcileReport} {db' : RtDatabase}
      (h : db.rtReconcileInboxPage actor now pageSize = .ok (commit, db')) : Step db db'
  | insertMember (row : RtMemberRow) : Step db (db.insertMember row)
  | deleteMember {row : RtMemberRow} (h : row ∈ db.teamMembers) : Step db (db.deleteMember row)
  | updateMember {old : RtMemberRow} (h : old ∈ db.teamMembers) (new : RtMemberRow) :
      Step db (db.updateMember old new)
  | updateTeam {old new : RtTeamRow} (h : old ∈ db.teams) (hid : new.teamId = old.teamId) :
      Step db (db.updateTeam old new)
  | other (permitsNative : List UInt8 → UInt64 → Bool) (users : List (List UInt8))
      (devices : List RtDeviceRow) (teamKeys : List RtTeamKeyRow) :
      Step db { db with permitsNative, users, devices, teamKeys }

/-- A database before the first channel. -/
structure Start (db : RtDatabase) : Prop where
  channelSets : db.channelSets = []
  channels : db.channels = []
  messages : db.messages = []
  inboxes : db.inboxes = []
  userChannels : db.userChannels = []

/-- A database that a run of steps leads to. -/
def Reached (db : RtDatabase) : Prop := ∃ start, Start start ∧ ReflTransGen Step start db

end RtDatabase

end Foks.ServerDb
