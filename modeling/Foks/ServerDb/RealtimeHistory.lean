/-
  What the history queries serve.

  A page is a part of the log of one channel, in the order of its sequence numbers or in the reverse
  order. The messages of a query by numbers are those of the numbers asked for that exist, each
once. -/
import Foks.ServerDb.RealtimeLog

namespace Foks.ServerDb

open Foks.Lib Foks.Proto

namespace RtDatabase

/-- The message is stored in the channel. -/
def Stores (db : RtDatabase) (id : RtChannelId) (m : RtMessage) : Prop :=
  ∃ row ∈ db.messages, row.channelId = id ∧ row.message = m

variable {db : RtDatabase} {id : RtChannelId} {messages : List RtMessage}

theorem Grows.stores {db' : RtDatabase} (h : Grows db db') {m : RtMessage} (hm : db.Stores id m) :
    db'.Stores id m := by
  obtain ⟨row, hrow, hplace⟩ := hm
  exact ⟨row, h.messages.subset hrow, hplace⟩

/-- In their channel, messages have different sequence numbers. -/
theorem Log.nodup_sequences (hlog : Log db) (id : RtChannelId) :
    ((db.messages.filter fun row => row.channelId = id).map (·.sequence)).Nodup := by
  by_cases hknown : ∃ channel ∈ db.channels, channel.id = id
  · obtain ⟨channel, hchannel, rfl⟩ := hknown
    refine List.Nodup.of_map UInt64.toNat ?_
    rw [List.map_map]
    show (db.sequencesOf channel.id).Nodup
    rw [hlog.sequences channel hchannel]
    exact List.nodup_range'
  · have hnone : (db.messages.filter fun row => row.channelId = id) = [] := by
      refine List.filter_eq_nil_iff.mpr fun row hrow hid => hknown ?_
      obtain ⟨channel, hchannel, hplace⟩ := hlog.placed row hrow
      exact ⟨channel, hchannel, hplace.trans (of_decide_eq_true hid)⟩
    rw [hnone]
    exact List.nodup_nil

theorem Log.row_eq (hlog : Log db) {a b : RtMessageRow} (ha : a ∈ db.messages)
    (hb : b ∈ db.messages) (hchannel : a.channelId = b.channelId)
    (hsequence : a.sequence = b.sequence) : a = b :=
  List.inj_on_of_nodup_map (hlog.nodup_sequences b.channelId)
    (List.mem_filter.mpr ⟨ha, decide_eq_true hchannel⟩)
    (List.mem_filter.mpr ⟨hb, decide_eq_true rfl⟩) hsequence

/-! ## Pages -/

/-- The order of a page. -/
def before (ascending : Bool) (a b : UInt64) : Prop := if ascending then a < b else b < a

/-- A part of the log of a channel, in order. -/
structure Served (db : RtDatabase) (id : RtChannelId) (ascending : Bool)
    (messages : List RtMessage) : Prop where
  stored : ∀ m ∈ messages, db.Stores id m
  sorted : messages.Pairwise fun a b => before ascending a.sequence b.sequence

theorem takeMessage_eq_ok {budget budget' : Budget} {row : RtMessageRow} {message : RtMessage}
    (h : takeMessage budget row = .ok (message, budget')) : message = row.message := by
  unfold takeMessage at h
  obtain ⟨_, _, hconsume⟩ := bind_eq_ok.mp h
  obtain ⟨_, _, hdone⟩ := bind_eq_ok.mp hconsume
  cases hdone
  rfl

theorem takeMessages_eq_ok {budget budget' : Budget} {rows : List RtMessageRow}
    (h : takeMessages budget rows = .ok (messages, budget')) : messages = rows.map (·.message) := by
  induction rows generalizing budget messages with
  | nil =>
    cases h
    rfl
  | cons row rows ih =>
    rw [takeMessages] at h
    obtain ⟨⟨message, mid⟩, hmessage, htail⟩ := bind_eq_ok.mp h
    obtain ⟨⟨rest, last⟩, hrest, hdone⟩ := bind_eq_ok.mp htail
    cases hdone
    rw [takeMessage_eq_ok hmessage, ih hrest, List.map_cons]

theorem mem_messageRows {isWithin : UInt64 → Bool} {ascending : Bool} {limit : Nat}
    {row : RtMessageRow} (h : row ∈ db.messageRows id isWithin ascending limit) :
    row ∈ db.messages ∧ row.channelId = id ∧ isWithin row.sequence = true := by
  unfold messageRows at h
  have hmem := (List.mem_insertionSort _).mp (List.mem_of_mem_take h)
  obtain ⟨hrow, hmatch⟩ := List.mem_filter.mp hmem
  simp only [Bool.and_eq_true, decide_eq_true_eq] at hmatch
  exact ⟨hrow, hmatch⟩

theorem Log.messageRows_sorted (hlog : Log db) (id : RtChannelId) (isWithin : UInt64 → Bool)
    (ascending : Bool) (limit : Nat) :
    (db.messageRows id isWithin ascending limit).Pairwise fun a b =>
      before ascending a.sequence b.sequence := by
  unfold messageRows
  refine List.Pairwise.sublist (List.take_sublist _ _) ?_
  have htotal : Std.Total fun a b : RtMessageRow =>
      if ascending = true then a.sequence ≤ b.sequence else b.sequence ≤ a.sequence :=
    ⟨fun a b => by
      have := Nat.le_total a.sequence.toNat b.sequence.toNat
      simp only [UInt64.le_iff_toNat_le]
      split <;> omega⟩
  have htrans : IsTrans RtMessageRow fun a b =>
      if ascending = true then a.sequence ≤ b.sequence else b.sequence ≤ a.sequence :=
    ⟨fun a b c => by
      simp only [UInt64.le_iff_toNat_le]
      split <;> omega⟩
  have hsorted := List.pairwise_insertionSort (fun a b : RtMessageRow =>
    if ascending = true then a.sequence ≤ b.sequence else b.sequence ≤ a.sequence)
    (db.messages.filter fun row => row.channelId = id && isWithin row.sequence)
  -- the numbers are in order and different
  have hdistinct : (db.messages.filter fun row =>
      row.channelId = id && isWithin row.sequence).Pairwise fun a b => a.sequence ≠ b.sequence := by
    have hall := List.pairwise_map.mp (hlog.nodup_sequences id)
    rw [List.pairwise_filter] at hall ⊢
    refine hall.imp fun {a b} hne ha hb => ?_
    simp only [Bool.and_eq_true] at ha hb
    exact hne ha.1 hb.1
  have hboth := hsorted.and ((List.perm_insertionSort _ _).symm.pairwise hdistinct
    fun {a b} hne => hne.symm)
  refine hboth.imp fun {a b} hab => ?_
  obtain ⟨hle, hne⟩ := hab
  have hnat : a.sequence.toNat ≠ b.sequence.toNat := fun heq => hne (UInt64.toNat_inj.mp heq)
  unfold before
  simp only [UInt64.le_iff_toNat_le, UInt64.lt_iff_toNat_lt] at hle ⊢
  split at hle <;> rename_i hascending <;> simp only [hascending, if_true] <;> simp <;> omega

theorem Log.served_messageRows (hlog : Log db) {isWithin : UInt64 → Bool} {ascending : Bool}
    {limit : Nat} {budget budget' : Budget} (h : takeMessages budget
      (db.messageRows id isWithin ascending limit) = .ok (messages, budget')) :
    Served db id ascending messages ∧ (∀ m ∈ messages, isWithin m.sequence = true) ∧
      messages.length ≤ limit := by
  have hrow {row : RtMessageRow} (hmem : row ∈ db.messageRows id isWithin ascending limit) :=
    mem_messageRows hmem
  have hsequence {row : RtMessageRow} (hmem : row ∈ db.messageRows id isWithin ascending limit) :
      row.message.sequence = row.sequence := (hlog.stored row (hrow hmem).1).sequence
  rw [takeMessages_eq_ok h]
  refine ⟨⟨fun m hm => ?_, ?_⟩, fun m hm => ?_, ?_⟩
  · obtain ⟨row, hmem, rfl⟩ := List.mem_map.mp hm
    exact ⟨row, (hrow hmem).1, (hrow hmem).2.1, rfl⟩
  · rw [List.pairwise_map]
    refine (hlog.messageRows_sorted id isWithin ascending limit).imp_of_mem
      fun {a b} ha hb hab => ?_
    rw [hsequence ha, hsequence hb]
    exact hab
  · obtain ⟨row, hmem, rfl⟩ := List.mem_map.mp hm
    rw [hsequence hmem]
    exact (hrow hmem).2.2
  · rw [List.length_map, messageRows]
    exact List.length_take_le _ _

theorem Log.rtRecents_served (hlog : Log db) {actor : RealtimeActor} {arg : RtRecents}
    {now : UInt64} (h : db.rtRecents actor arg now = .ok messages) :
    Served db arg.channel false messages ∧
      (arg.limit ≠ 0 → messages.length ≤ arg.limit.toNat) := by
  unfold rtRecents at h
  obtain ⟨md, _, h⟩ := bind_eq_ok.mp h
  obtain ⟨_, _, h⟩ := bind_eq_ok.mp h
  obtain ⟨_, _, h⟩ := bind_eq_ok.mp h
  dsimp only at h
  obtain ⟨_, h⟩ := ite_error_eq_ok.mp h
  obtain ⟨stopAt, _, h⟩ := bind_eq_ok.mp h
  obtain ⟨⟨taken, budget⟩, htaken, hdone⟩ := bind_eq_ok.mp h
  cases hdone
  obtain ⟨hserved, _, hlength⟩ := hlog.served_messageRows htaken
  refine ⟨hserved, fun hlimit => ?_⟩
  rw [if_neg hlimit] at hlength
  exact hlength

/-- What is served for one range of a query. -/
structure RangeServed (db : RtDatabase) (id : RtChannelId) (range : RtThreadRange)
    (messages : List RtMessage) : Prop where
  served : Served db id (range.start ≤ range.stop) messages
  within : ∀ m ∈ messages,
    min range.start range.stop ≤ m.sequence ∧ m.sequence ≤ max range.start range.stop

theorem Log.takeRanges_served (hlog : Log db) {ranges : List RtThreadRange}
    {budget budget' : Budget} {lists : List (List RtMessage)}
    (h : db.takeRanges id budget ranges = .ok (lists, budget')) :
    List.Forall₂ (RangeServed db id) ranges lists := by
  induction ranges generalizing budget lists with
  | nil =>
    cases h
    exact .nil
  | cons range ranges ih =>
    rw [takeRanges] at h
    obtain ⟨start, hstart, h⟩ := bind_eq_ok.mp h
    obtain ⟨stop, hstop, h⟩ := bind_eq_ok.mp h
    obtain ⟨⟨messages, mid⟩, hmessages, h⟩ := bind_eq_ok.mp h
    obtain ⟨⟨rest, last⟩, hrest, hdone⟩ := bind_eq_ok.mp h
    cases hdone
    obtain ⟨_, rfl⟩ := sqlInteger_eq_ok.mp hstart
    obtain ⟨_, rfl⟩ := sqlInteger_eq_ok.mp hstop
    obtain ⟨hserved, hwithin, _⟩ := hlog.served_messageRows hmessages
    refine .cons ⟨hserved, fun m hm => ?_⟩ (ih hrest)
    simpa using hwithin m hm

theorem Log.takeSequences_served (hlog : Log db) {sequences : List UInt64} {budget : Budget}
    (h : db.takeSequences id budget sequences = .ok messages) :
    (∀ m ∈ messages, db.Stores id m) ∧ List.Sublist (messages.map (·.sequence)) sequences := by
  induction sequences generalizing budget messages with
  | nil =>
    cases h
    exact ⟨fun m hm => (List.not_mem_nil hm).elim, List.Sublist.slnil⟩
  | cons sequence sequences ih =>
    rw [takeSequences] at h
    obtain ⟨number, hnumber, hmatch⟩ := bind_eq_ok.mp h
    obtain ⟨_, rfl⟩ := sqlInteger_eq_ok.mp hnumber
    cases hfound : db.messageAt? id number with
    | none =>
      rw [hfound] at hmatch
      obtain ⟨hstored, hsublist⟩ := ih hmatch
      exact ⟨hstored, hsublist.cons _⟩
    | some row =>
      rw [hfound] at hmatch
      obtain ⟨⟨message, mid⟩, hmessage, htail⟩ := bind_eq_ok.mp hmatch
      obtain ⟨rest, hrest, rfl⟩ := map_eq_ok.mp htail
      obtain rfl := takeMessage_eq_ok hmessage
      obtain ⟨hmem, hplace, hsequence⟩ := messageAt?_eq_some hfound
      obtain ⟨hstored, hsublist⟩ := ih hrest
      refine ⟨List.forall_mem_cons.mpr ⟨⟨row, hmem, hplace, rfl⟩, hstored⟩, ?_⟩
      rw [List.map_cons, (hlog.stored row hmem).sequence, hsequence]
      exact hsublist.cons_cons _

/-- What a thread query is answered with. -/
structure ThreadServed (db : RtDatabase) (query : RtThreadQuery) (page : RtThreadPage) : Prop where
  ranges : List.Forall₂ (RangeServed db query.channel) query.ranges page.ranges
  stored : ∀ m ∈ page.sequences, db.Stores query.channel m ∧ m.sequence ∈ query.sequences
  distinct : (page.sequences.map (·.sequence)).Nodup

theorem Log.rtThread_served (hlog : Log db) {actor : RealtimeActor} {query : RtThreadQuery}
    {now : UInt64} {page : RtThreadPage} (h : db.rtThread actor query now = .ok page) :
    ThreadServed db query page := by
  unfold rtThread at h
  obtain ⟨md, _, h⟩ := bind_eq_ok.mp h
  obtain ⟨_, _, h⟩ := bind_eq_ok.mp h
  obtain ⟨_, _, h⟩ := bind_eq_ok.mp h
  obtain ⟨_, h⟩ := ite_error_eq_ok.mp h
  obtain ⟨⟨ranges, budget⟩, hranges, h⟩ := bind_eq_ok.mp h
  obtain ⟨sequences, hsequences, hdone⟩ := bind_eq_ok.mp h
  cases hdone
  obtain ⟨hstored, hsublist⟩ := hlog.takeSequences_served hsequences
  have hperm := List.perm_insertionSort (fun a b : UInt64 => a ≤ b) query.sequences.dedup
  refine ⟨hlog.takeRanges_served hranges, fun m hm => ⟨hstored m hm, ?_⟩, ?_⟩
  · have hmem := hsublist.subset (List.mem_map.mpr ⟨m, hm, rfl⟩)
    exact List.mem_dedup.mp (hperm.mem_iff.mp hmem)
  · exact (hperm.nodup_iff.mpr (List.nodup_dedup _)).sublist hsublist

end RtDatabase

end Foks.ServerDb
