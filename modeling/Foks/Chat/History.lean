/-
  The history of a channel, as an honest server gives it.

  What a client knows of a channel are messages of one log: rows of a page, predecessors that it
  asked for, anchors from earlier pages. `HonestLog` is what makes them agree, and it follows from
  the log of the chat store (`Log`): a number and an identifier stand for one message, and a pointer
  names the message of its number. On messages of such a log no check of a page fails with an error
  of channel integrity, and no row is condemned. The log only grows, so that pages, predecessors and
  anchors may come from different times.
-/
import Foks.Client.ChatVerdicts
import Foks.ServerDb.RealtimeHistory

namespace Foks.Chat

open Foks.Lib Foks.Proto Foks.ServerDb Foks.ServerDb.RtDatabase Foks.Client Foks.Crypto Relation

/-! ## Messages of one log -/

structure HonestLog (log : RtMessage → Prop) : Prop where
  sequence : ∀ m, log m → m.sequence ≠ 0 ∧ m.sequence.toNat < 2 ^ 63
  sender : ∀ m, log m → m.sender.isSome = true
  bySequence : ∀ a b, log a → log b → a.sequence = b.sequence → a = b
  byId : ∀ a b, log a → log b → a.metadata.id = b.metadata.id → a = b
  previous : ∀ a b, log a → log b → a.metadata.previousSequence = b.sequence →
    b.metadata.id = a.metadata.previousId

/-- The anchor of a message of the log. -/
def OfLog (digest : Digest) (log : RtMessage → Prop) (a : ChatAnchor) : Prop :=
  ∃ m, log m ∧ anchor digest m = .ok a

/-- The error accuses nobody. -/
def NotAccused (error : Client.Error) : Prop :=
  ∀ message, error ≠ .chatChannelIntegrity message

variable {m : RtMessage} {a : ChatAnchor}

section

variable {digest : Digest} {log : RtMessage → Prop}

theorem OfLog.eq (hlog : HonestLog log) {b : ChatAnchor} (ha : OfLog digest log a)
    (hb : OfLog digest log b) (h : a.sequence = b.sequence ∨ a.id = b.id) : a = b := by
  obtain ⟨m, hm, hanchor⟩ := ha
  obtain ⟨n, hn, hanchor'⟩ := hb
  obtain ⟨hsequence, hid⟩ := anchor_eq_ok hanchor
  obtain ⟨hsequence', hid'⟩ := anchor_eq_ok hanchor'
  have hsame : m = n := by
    rcases h with h | h
    · exact hlog.bySequence m n hm hn (by rw [← hsequence, ← hsequence', h])
    · exact hlog.byId m n hm hn (by rw [← hid, ← hid', h])
  subst hsame
  exact Except.ok.inj (hanchor.symm.trans hanchor')

theorem ensures_anchor (hm : log m) :
    Ensures NotAccused (fun a => OfLog digest log a ∧ a.sequence = m.sequence)
    (anchor digest m) := by
  have herrors : Ensures NotAccused (fun _ => True) (anchor digest m) :=
    (ensures_mapError (fun _ _ => nofun) m.encoded).map fun _ _ => trivial
  exact herrors.self.mono (fun _ => id) fun a ha => ⟨⟨m, hm, ha⟩, (anchor_eq_ok ha).1⟩

end

/-! ## The ledger -/

/-- An error of the store that is not a conflict. -/
def NoConflict (error : Client.Error) : Prop :=
  NotAccused error ∧ ∀ message, error ≠ .chatConflict message

theorem ensures_sqliteInteger (field : String) (value : UInt64) :
    Ensures NoConflict (fun stored => stored = value) (ChatInbox.sqliteInteger field value) := by
  unfold ChatInbox.sqliteInteger
  split
  · rfl
  · exact ⟨fun _ => nofun, fun _ => nofun⟩

variable {observed : List ChatAnchor}

section

variable {digest : Digest} {log : RtMessage → Prop} {ledger : ChatLedger} {scope : ChatScope}

theorem ensures_chatAnchor (ledger : ChatLedger) (scope : ChatScope) (sequence : UInt64) :
    Ensures NoConflict (fun found => found = ledger.anchorWhere scope fun a =>
      a.sequence = sequence) (ledger.chatAnchor scope sequence) := by
  refine (ensures_sqliteInteger "chat sequence" sequence).map ?_
  rintro _ rfl
  rfl

/-- The anchors of a scope are those of messages of a log. -/
def ScopeOfLog (digest : Digest) (log : RtMessage → Prop) (ledger : ChatLedger)
    (scope : ChatScope) : Prop :=
  ∀ row ∈ ledger, row.scope = scope → OfLog digest log row.anchor

theorem ScopeOfLog.anchorWhere (h : ScopeOfLog digest log ledger scope) {p : ChatAnchor → Bool}
    (ha : ledger.anchorWhere scope p = some a) : OfLog digest log a ∧ p a = true := by
  obtain ⟨row, hrow, rfl⟩ := Option.map_eq_some_iff.mp ha
  have hfound := List.find?_some hrow
  simp only [Bool.and_eq_true, decide_eq_true_eq] at hfound
  exact ⟨h row (List.mem_of_find?_eq_some hrow) hfound.1, hfound.2⟩

variable {before : List ChatAnchor}

theorem ensures_checkObserved (hlog : HonestLog log) (hledger : ScopeOfLog digest log ledger scope)
    (hbefore : ∀ old ∈ before, OfLog digest log old) (ha : OfLog digest log a) :
    Ensures NoConflict (fun _ => True) (ledger.checkObserved scope before a) := by
  refine Ensures.guard (fun hany => ?_) fun _ => ?_
  · obtain ⟨old, hold, hmatch⟩ := List.any_eq_true.mp hany
    simp only [Bool.and_eq_true, Bool.or_eq_true, decide_eq_true_eq] at hmatch
    exact absurd ((hbefore old hold).eq hlog ha hmatch.1) hmatch.2
  · refine (ensures_chatAnchor ledger scope a.sequence).bind fun found hfound => Ensures.guard
      (fun hdiffer => ?_) fun _ => trivial
    have hsame {p : ChatAnchor → Bool} {old : ChatAnchor}
        (hold : ledger.anchorWhere scope p = some old)
        (hp : p old = true → old.sequence = a.sequence ∨ old.id = a.id) : old = a :=
      have ⟨hof, hmatch⟩ := hledger.anchorWhere hold
      hof.eq hlog ha (hp hmatch)
    subst hfound
    rw [Bool.or_eq_true, Option.any_eq_true, Option.any_eq_true] at hdiffer
    rcases hdiffer with ⟨old, hold, hne⟩ | ⟨old, hold, hne⟩
    · exact absurd (hsame hold fun h => .inl (of_decide_eq_true h)) (of_decide_eq_true hne)
    · exact absurd (hsame hold fun h => .inr (of_decide_eq_true h)) (of_decide_eq_true hne)

theorem ensures_checkAllObserved (hlog : HonestLog log)
    (hledger : ScopeOfLog digest log ledger scope) (hbefore : ∀ old ∈ before, OfLog digest log old)
    (hobserved : ∀ a ∈ observed, OfLog digest log a) :
    Ensures NoConflict (fun _ => True) (ledger.checkAllObserved scope before observed) := by
  induction observed generalizing before with
  | nil => exact trivial
  | cons a observed ih =>
    rw [List.forall_mem_cons] at hobserved
    refine (ensures_checkObserved hlog hledger hbefore hobserved.1).bind fun _ _ => ?_
    refine ih (fun old hold => ?_) hobserved.2
    rcases List.mem_append.mp hold with hold | hold
    · exact hbefore old hold
    · rw [List.mem_singleton.mp hold]
      exact hobserved.1

/-- What a page adds to the ledger are anchors of its scope. -/
def LedgerExtends (digest : Digest) (log : RtMessage → Prop) (scope : ChatScope)
    (ledger ledger' : ChatLedger) : Prop :=
  ∀ row ∈ ledger', row ∈ ledger ∨ row.scope = scope ∧ OfLog digest log row.anchor

theorem ensures_insertAnchor (hlog : HonestLog log) (hobserved : ∀ a ∈ observed, OfLog digest log a)
    {current : ChatLedger} (ha : a ∈ observed)
    (hcurrent : LedgerExtends digest log scope ledger current) :
    Ensures NoConflict (LedgerExtends digest log scope ledger)
      (ChatLedger.insertAnchor scope observed current a) := by
  refine Ensures.guard (fun hmissing => ?_) fun _ => ?_
  · -- the first observation with the number is this one
    refine absurd ?_ hmissing
    cases hfound : observed.find? fun other => other.sequence = a.sequence with
    | none => exact absurd (List.find?_eq_none.mp hfound a ha) (by simp)
    | some other =>
      have hsequence : other.sequence = a.sequence := by simpa using List.find?_some hfound
      rw [(hobserved other (List.mem_of_find?_eq_some hfound)).eq hlog (hobserved a ha)
        (.inl hsequence)]
  · refine (ensures_sqliteInteger "chat sequence" a.sequence).bind fun sequence _ => Ensures.guard
      (fun _ => ⟨fun _ => nofun, fun _ => nofun⟩) fun _ => ?_
    split
    · exact hcurrent
    · intro row hrow
      rcases List.mem_append.mp hrow with hrow | hrow
      · exact hcurrent row hrow
      · rw [List.mem_singleton.mp hrow]
        exact .inr ⟨rfl, hobserved a ha⟩

theorem ensures_chatAcceptPage (hlog : HonestLog log) (hledger : ScopeOfLog digest log ledger scope)
    {anchors : List ChatAnchor} (hobserved : ∀ a ∈ observed, OfLog digest log a)
    (hanchors : anchors ⊆ observed) :
    Ensures NoConflict (LedgerExtends digest log scope ledger)
      (ledger.chatAcceptPage scope observed anchors) := by
  refine (ensures_checkAllObserved hlog hledger (fun _ hold => (List.not_mem_nil hold).elim)
    hobserved).bind fun _ _ => ?_
  have hinserted : Ensures NoConflict (LedgerExtends digest log scope ledger)
      (anchors.foldlM (ChatLedger.insertAnchor scope observed) ledger) :=
    ensures_foldlM (fun a ha current hcurrent =>
      ensures_insertAnchor hlog hobserved (hanchors ha) hcurrent) fun row hrow => .inl hrow
  refine hinserted.bind fun current hcurrent row hrow => ?_
  unfold ChatLedger.prune at hrow
  split at hrow
  · exact hcurrent row hrow
  · exact hcurrent row (List.mem_of_mem_filter hrow)

end

/-! ## A page of the log -/

variable {requested : List UInt64} {row : ChatMessage} {messages : List ChatMessage}
  {rows : List RtMessage}

section

variable {digest : Digest} {session : ChatSession} {md : RtChannelMetadata}
  {log : RtMessage → Prop} {ledger : ChatLedger}

theorem ensures_encodedSize (rows : List RtMessage) :
    Ensures NotAccused (fun _ => True) (encodedSize rows) :=
  ensures_foldlM (fun _ _ _ _ => (ensures_mapError (fun _ _ => nofun) _).map fun _ _ => trivial)
    trivial

theorem ensures_keys (session : ChatSession) (key : RoleAndGeneration) :
    Ensures NotAccused (fun _ => True) (session.keys key) := by
  refine Ensures.bind (ensures_okOr ?_ _) fun ptks _ => Ensures.bind
    (ensures_okOr ?_ _) fun ptk _ =>
    (ensures_okOr ?_ _).mono (fun _ => id) fun _ _ => trivial
  all_goals exact fun _ => nofun

theorem ensures_openBox (m : RtMessage) (sender : EntityId) (box : RtMessageBox) :
    Ensures NotAccused (fun _ => True) (session.openBox md m sender box) := by
  unfold ChatSession.openBox
  split
  · trivial
  · rename_i error _ hkeys
    exact (ensures_keys session box.key).of_error hkeys
  · split
    · trivial
    · split <;> trivial

/-- A message of the log can be opened as far as it accuses nobody. -/
theorem ensures_openMessage (hlog : HonestLog log) (hm : log m) :
    Ensures NotAccused (fun content => session.openMessage md m = .ok content)
      (session.openMessage md m) := by
  suffices h : Ensures NotAccused (fun _ => True) (session.openMessage md m) from h.self
  obtain ⟨hzero, hsmall⟩ := hlog.sequence m hm
  obtain ⟨sender, hsender⟩ := Option.isSome_iff_exists.mp (hlog.sender m hm)
  unfold ChatSession.openMessage
  rw [if_neg (not_or.mpr ⟨hzero, Nat.not_le.mpr hsmall⟩), hsender]
  show Ensures NotAccused _ (session.openAuthored md m sender)
  unfold ChatSession.openAuthored
  split
  · trivial
  · split
    · trivial
    · split
      · trivial
      · split
        · trivial
        · split
          · trivial
          · split
            · trivial
            · exact ensures_openBox m sender.entity _

/-- A row of a page, opened, as the passes leave it. -/
structure HonestRow (digest : Digest) (log : RtMessage → Prop) (observed : List ChatAnchor)
    (row : ChatMessage) : Prop where
  message : log row.message
  content : row.content ≠ predecessorContradiction
  observed : ∃ a ∈ observed, anchor digest row.message = .ok a

theorem ensures_openRows (hlog : HonestLog log) {before : List RtMessage}
    (hrows : ∀ m ∈ rows, log m)
    (hdistinct : (before ++ rows).Pairwise fun a b => a.sequence ≠ b.sequence)
    (hbefore : ∀ m ∈ before, log m) :
    Ensures NotAccused (fun opened => openRows digest session md before rows = .ok opened)
      (openRows digest session md before rows) := by
  suffices h : Ensures NotAccused (fun _ => True) (openRows digest session md before rows) from
    h.self
  induction rows generalizing before with
  | nil => trivial
  | cons m rows ih =>
    rw [List.forall_mem_cons] at hrows
    refine Ensures.guard (fun hany => ?_) fun _ => ?_
    · obtain ⟨old, hold, hmatch⟩ := List.any_eq_true.mp hany
      have hne := (List.pairwise_append.mp hdistinct).2.2 old hold m List.mem_cons_self
      simp only [Bool.or_eq_true, decide_eq_true_eq] at hmatch
      refine absurd (hmatch.elim (fun hid => ?_) id) hne
      rw [hlog.byId old m (hbefore old hold) hrows.1 hid]
    · refine (ensures_anchor hrows.1).bind fun observed _ => ?_
      refine (ensures_openMessage hlog hrows.1).bind fun content _ => ?_
      refine (ih hrows.2 (by simpa using hdistinct) fun old hold => ?_).bind fun _ _ => trivial
      rcases List.mem_append.mp hold with hold | hold
      · exact hbefore old hold
      · rw [List.mem_singleton.mp hold]
        exact hrows.1

/-- The page and the anchors agree with every pointer. -/
theorem not_contradicts (hlog : HonestLog log)
    (hledger : ScopeOfLog digest log ledger (session.scope md.id))
    (hmessages : ∀ row ∈ messages, log row.message) (hrow : row ∈ messages) {id : RtMessageId}
    (hid : mappedId ledger (session.scope md.id) messages row.message.metadata.previousSequence =
      some id) : id = row.message.metadata.previousId := by
  rcases Option.or_eq_some_iff.mp hid with hpage | ⟨_, hstored⟩
  · obtain ⟨other, hother, rfl⟩ := Option.map_eq_some_iff.mp hpage
    have hsequence : other.message.sequence = row.message.metadata.previousSequence := by
      simpa using List.find?_some hother
    exact hlog.previous _ _ (hmessages row hrow)
      (hmessages other (List.mem_of_find?_eq_some hother)) hsequence.symm
  · obtain ⟨a, ha, rfl⟩ := Option.map_eq_some_iff.mp hstored
    obtain ⟨⟨m, hm, hanchor⟩, hsequence⟩ := hledger.anchorWhere ha
    obtain ⟨hnumber, hsame⟩ := anchor_eq_ok hanchor
    rw [hsame]
    refine hlog.previous _ m (hmessages row hrow) hm ?_
    rw [← hnumber]
    exact (of_decide_eq_true hsequence).symm

/-- The first pass leaves the rows as they are. -/
theorem ensures_checkPredecessor (hlog : HonestLog log)
    (hledger : ScopeOfLog digest log ledger (session.scope md.id))
    (hmessages : ∀ row ∈ messages, log row.message) {state : List ChatMessage × SequenceSet}
    (hstate : state.1 = messages) (index : Nat) :
    Ensures NotAccused (fun state' => state'.1 = messages)
      (checkPredecessor ledger (session.scope md.id) state index) := by
  subst hstate
  unfold checkPredecessor
  cases hindex : state.1[index]? with
  | none => rfl
  | some row =>
    have hrow := List.mem_of_getElem? hindex
    show Ensures _ _ (if _ then _ else _)
    split
    · rfl
    · refine Ensures.bind ((ensures_chatAnchor ledger _ _).mono (fun _ herror => herror.1)
        fun _ => id) fun stored hstored => ?_
      subst hstored
      show Ensures _ _ (settlePredecessor state.1 state.2 index row
        (storedId ledger (session.scope md.id) row.message.metadata.previousSequence))
      unfold settlePredecessor
      dsimp only
      split
      · rfl
      · rename_i id hid
        rw [if_pos (not_contradicts hlog hledger hmessages hrow hid)]
        rfl

/-- What a page and its predecessors are, before and after predecessors are asked for. -/
structure HonestState (digest : Digest) (log : RtMessage → Prop) (state : PredecessorState) :
    Prop where
  rows : ∀ row ∈ state.messages, HonestRow digest log state.observed row
  observed : ∀ a ∈ state.observed, OfLog digest log a
  anchors : state.anchors ⊆ state.observed

theorem HonestRow.mono {observed' : List ChatAnchor} (h : HonestRow digest log observed row)
    (hsubset : observed ⊆ observed') : HonestRow digest log observed' row :=
  have ⟨a, ha, hanchor⟩ := h.observed
  ⟨h.message, h.content, a, hsubset ha, hanchor⟩

section

variable (hlog : HonestLog log)
include hlog

theorem ensures_openPage
    (hledger : ScopeOfLog digest log ledger (session.scope md.id)) (hrows : ∀ m ∈ rows, log m)
    (hdistinct : rows.Pairwise fun a b => a.sequence ≠ b.sequence) :
    Ensures NotAccused (fun state => HonestState digest log state ∧ state.seen = [])
      (openPage digest session md ledger rows) := by
  refine (ensures_encodedSize rows).bind fun bytes _ => Ensures.guard (fun _ _ => nofun) fun _ => ?_
  refine Ensures.bind (ensures_openRows hlog hrows (by simpa using hdistinct) (by simp))
    fun opened hopened => ?_
  obtain ⟨hforall, _, _⟩ := openRows_eq_ok hopened
  have hread {row : ChatMessage × ChatAnchor} (hrow : row ∈ opened) :
      RowOpened digest session md row.1.message row ∧ log row.1.message := by
    obtain ⟨m, hm, h⟩ := exists_of_mem_forall₂ hforall hrow
    rw [h.message]
    exact ⟨h, hrows m hm⟩
  have hmessages : ∀ row ∈ opened.map (·.1), log row.message := by
    intro row hrow
    obtain ⟨pair, hpair, rfl⟩ := List.mem_map.mp hrow
    exact (hread hpair).2
  refine Ensures.bind (ensures_foldlM (fun index _ state hstate =>
    ensures_checkPredecessor hlog hledger hmessages hstate index) rfl) ?_
  rintro ⟨messages, need⟩ rfl
  refine ⟨⟨fun row hrow => ?_, fun a ha => ?_, fun a ha => (List.not_mem_nil ha).elim⟩, rfl⟩
  · obtain ⟨pair, hpair, rfl⟩ := List.mem_map.mp hrow
    obtain ⟨h, hm⟩ := hread hpair
    exact ⟨hm, openMessage_not_contradiction h.content, pair.2,
      List.mem_map.mpr ⟨pair, hpair, rfl⟩, h.anchor⟩
  · obtain ⟨pair, hpair, rfl⟩ := List.mem_map.mp ha
    obtain ⟨h, hm⟩ := hread hpair
    exact ⟨_, hm, h.anchor⟩

/-! ## The predecessors -/

theorem settleRow_honest (hm : log m) (hrow : log row.message)
    (authenticated : Bool) : settleRow m authenticated row = .ok row := by
  unfold settleRow
  rw [if_neg]
  rintro ⟨_, hsequence, hdiffer⟩
  exact hdiffer (hlog.previous row.message m hrow hm hsequence).symm

variable {state : PredecessorState}

theorem ensures_takePredecessor (hm : log m)
    (hstate : HonestState digest log state) (bytes : Nat) : Ensures NotAccused
      (fun state' => HonestState digest log state' ∧ state'.seen = state.seen ++ [m.sequence])
      (takePredecessor digest session md state m bytes) := by
  refine (ensures_anchor hm).bind fun observed hobserved => ?_
  refine (ensures_openMessage hlog hm).bind fun content _ => ?_
  have hmessages : state.messages.mapM (settleRow m content.isText) = .ok state.messages := by
    rw [mapM_eq_ok_iff]
    exact List.forall₂_same.mpr fun row hrow =>
      settleRow_honest hlog hm (hstate.rows row hrow).message _
  rw [hmessages, ok_bind]
  have hkept : state.observed ⊆ state.observed ++ [observed] := List.subset_append_left _ _
  refine ⟨⟨fun row hrow => (hstate.rows row hrow).mono hkept, fun a ha => ?_, ?_⟩, rfl⟩
  · rcases List.mem_append.mp ha with ha | ha
    · exact hstate.observed a ha
    · rw [List.mem_singleton.mp ha]
      exact hobserved.1
  · have hanchors := List.Subset.trans hstate.anchors hkept
    split
    · exact List.append_subset.mpr ⟨hanchors, List.subset_append_right _ _⟩
    · exact hanchors

theorem ensures_acceptPredecessor (hm : log m)
    (hrequested : m.sequence ∈ requested) (hstate : HonestState digest log state)
    (hnew : m.sequence ∉ state.seen) : Ensures NotAccused
      (fun state' => HonestState digest log state' ∧ state'.seen = state.seen ++ [m.sequence])
      (acceptPredecessor digest session md requested state m) := by
  unfold acceptPredecessor
  rw [if_neg (not_or.mpr ⟨not_not.mpr hrequested, hnew⟩)]
  split
  · refine (ensures_mapError (fun _ _ => nofun) m.encoded).bind fun bytes _ => ?_
    split
    · exact ⟨⟨hstate.rows, hstate.observed, hstate.anchors⟩, rfl⟩
    · exact ensures_takePredecessor hlog hm hstate _
  · exact ensures_takePredecessor hlog hm hstate _

theorem ensures_acceptPredecessors {fetched : List RtMessage}
    (hfetched : ∀ m ∈ fetched, log m ∧ m.sequence ∈ requested)
    (hstate : HonestState digest log state)
    (hdistinct : (state.seen ++ fetched.map (·.sequence)).Nodup) :
    Ensures NotAccused (HonestState digest log)
      (fetched.foldlM (acceptPredecessor digest session md requested) state) := by
  induction fetched generalizing state with
  | nil => exact hstate
  | cons m fetched ih =>
    rw [List.forall_mem_cons] at hfetched
    obtain ⟨⟨hm, hrequested⟩, hrest⟩ := hfetched
    have hnew : m.sequence ∉ state.seen := fun hseen =>
      (List.nodup_append.mp hdistinct).2.2 _ hseen _ List.mem_cons_self rfl
    refine (ensures_acceptPredecessor hlog hm hrequested hstate hnew).bind fun mid hmid => ?_
    refine ih hrest hmid.1 ?_
    rw [hmid.2]
    simpa using hdistinct

end

/-- An honest answer to a request for messages by their numbers. -/
structure HonestSequences (log : RtMessage → Prop) (requested : List UInt64)
    (page : RtThreadPage) : Prop where
  ranges : page.ranges = []
  messages : ∀ m ∈ page.sequences, log m ∧ m.sequence ∈ requested
  distinct : (page.sequences.map (·.sequence)).Nodup

theorem HonestSequences.length_le {page : RtThreadPage} (h : HonestSequences log requested page) :
    page.sequences.length ≤ requested.length := by
  rw [← List.length_map (fun m : RtMessage => m.sequence)]
  refine (h.distinct.subperm fun sequence hmem => ?_).length_le
  obtain ⟨m, hm, rfl⟩ := List.mem_map.mp hmem
  exact (h.messages m hm).2

variable {fetch : RtThreadQuery → Except Client.Error RtThreadPage}

theorem ensures_fetchPredecessors (hlog : HonestLog log)
    (hfetch : ∀ requested, Ensures NotAccused (HonestSequences log requested)
      (fetch ⟨md.id, [], requested⟩)) (hstate : HonestState digest log state)
    (hseen : state.seen = []) :
    Ensures NotAccused (HonestState digest log)
      (fetchPredecessors digest session md fetch state) := by
  unfold fetchPredecessors
  dsimp only
  split
  · exact hstate
  · refine (hfetch _).bind fun page hpage => Ensures.guard (fun hmismatch => ?_) fun _ => ?_
    · rcases hmismatch with hranges | hlength
      · rw [hpage.ranges] at hranges
        cases hranges
      · exact absurd hpage.length_le (Nat.not_le.mpr hlength)
    · refine ensures_acceptPredecessors hlog hpage.messages hstate ?_
      rw [hseen]
      exact hpage.distinct

/-- Nobody is accused by the verdicts, and what goes to the ledger is from the log. -/
structure HonestHistory (digest : Digest) (log : RtMessage → Prop) (scope : ChatScope)
    (ledger : ChatLedger) (result : ChatHistory × ChatLedger) : Prop where
  verdicts : ∀ row ∈ result.1.messages, row.content ≠ predecessorContradiction
  ledger : LedgerExtends digest log scope ledger result.2

theorem ensures_verifyPage (hlog : HonestLog log)
    (hledger : ScopeOfLog digest log ledger (session.scope md.id)) (hrows : ∀ m ∈ rows, log m)
    (hdistinct : rows.Pairwise fun a b => a.sequence ≠ b.sequence)
    (hfetch : ∀ requested, Ensures NotAccused (HonestSequences log requested)
      (fetch ⟨md.id, [], requested⟩)) :
    Ensures NotAccused (HonestHistory digest log (session.scope md.id) ledger)
      (verifyPage digest session md fetch ledger rows) := by
  have hjudge : Ensures NotAccused (fun page =>
      page.history.scope = session.scope md.id ∧
      (∀ row ∈ page.history.messages, row.content ≠ predecessorContradiction) ∧
      (∀ a ∈ page.observed, OfLog digest log a) ∧ page.anchors ⊆ page.observed)
      (judgePage digest session md fetch ledger rows) := by
    refine (ensures_openPage hlog hledger hrows hdistinct).bind fun first hfirst => ?_
    refine (ensures_fetchPredecessors hlog hfetch hfirst.1 hfirst.2).bind fun state hstate => ?_
    refine Ensures.bind (@ensures_mapM _ _ _ _ (fun row a => a ∈ state.observed) _ _
      fun row hrow => ?_) fun texts htexts => ⟨rfl, fun row hrow => (hstate.rows row hrow).content,
        hstate.observed, List.append_subset.mpr ⟨fun a ha => ?_, hstate.anchors⟩⟩
    · obtain ⟨a, ha, hanchor⟩ := (hstate.rows row (List.mem_of_mem_filter hrow)).observed
      rw [hanchor]
      exact ha
    · obtain ⟨_, _, hmem⟩ := exists_of_mem_forall₂ htexts ha
      exact hmem
  refine hjudge.bind fun page ⟨hscope, hverdicts, hobserved, hanchors⟩ => ?_
  rw [hscope]
  refine Ensures.bind ((ensures_chatAcceptPage hlog hledger hobserved hanchors).mapError
    fun error herror => ?_) fun accepted haccepted => ⟨hverdicts, haccepted⟩
  unfold anchorError
  split
  · exact absurd rfl (herror.2 _)
  · exact herror.1

end

/-! ## The log of the chat store -/

theorem honestLog {db : RtDatabase} (hlog : Log db) (id : RtChannelId) :
    HonestLog (db.Stores id) := by
  refine ⟨?_, ?_, ?_, ?_, ?_⟩
  · rintro m ⟨row, hrow, _, rfl⟩
    obtain ⟨channel, hchannel, hplace⟩ := hlog.placed row hrow
    have hstored := hlog.stored row hrow
    have hpositive := (hlog.message_le hchannel hrow hplace.symm).1
    rw [hstored.sequence]
    refine ⟨fun hzero => ?_, hstored.small⟩
    rw [hzero] at hpositive
    cases hpositive
  · rintro m ⟨row, hrow, _, rfl⟩
    exact (hlog.stored row hrow).sender
  · rintro _ _ ⟨a, ha, hplace, rfl⟩ ⟨b, hb, hplace', rfl⟩ hsequence
    rw [(hlog.stored a ha).sequence, (hlog.stored b hb).sequence] at hsequence
    rw [hlog.row_eq ha hb (hplace.trans hplace'.symm) hsequence]
  · rintro _ _ ⟨a, ha, _, rfl⟩ ⟨b, hb, _, rfl⟩ hid
    rw [(hlog.stored a ha).id, (hlog.stored b hb).id] at hid
    rw [hlog.messageIds.eq ha hb hid]
  · rintro _ _ ⟨a, ha, hplace, rfl⟩ ⟨b, hb, hplace', rfl⟩ hprevious
    obtain ⟨channel, hchannel, hchannelId⟩ := hlog.placed b hb
    have hstored := hlog.stored b hb
    have hpositive := (hlog.message_le hchannel hb hchannelId.symm).1
    rw [hstored.sequence] at hprevious
    have hpointer : a.message.metadata.previousSequence ≠ 0 := fun hzero => by
      rw [← hprevious, hzero] at hpositive
      cases hpositive
    obtain ⟨old, hold, hsame, hnumber, hid, _⟩ := hlog.previous a ha hpointer
    have hrow : old = b := hlog.row_eq hold hb (hsame.trans (hplace.trans hplace'.symm))
      (hnumber.trans hprevious)
    rw [hstored.id, ← hrow, hid]

/-! ## Reading from the chat store -/

/-- The client gets what the server has served, or an error that accuses nobody. -/
def Answered {α : Type} (serve : RealtimeActor → UInt64 → Except ServerDb.Error α)
    (answer : Except Client.Error α) : Prop :=
  Ensures NotAccused (fun value => ∃ actor now, serve actor now = .ok value) answer

/-- The answers to one read. The channel may be listed at any time, and other calls reach the server
    between the page and its predecessors. -/
structure HonestAnswers (channel : RtChannelId) (rows predecessors : RtDatabase)
    (answers : ChatAnswers) : Prop where
  channel : Ensures NotAccused (fun md : RtChannelMetadata => md.id = channel) answers.channel
  recents : ∀ arg, Answered (fun actor => rows.rtRecents actor arg) (answers.recents arg)
  thread : ∀ query, Answered (fun actor => rows.rtThread actor query) (answers.thread query)
  later : ReflTransGen Step rows predecessors
  predecessors : ∀ query,
    Answered (fun actor => predecessors.rtThread actor query) (answers.predecessors query)

/-- A query for a part of the history. -/
inductive HistoryQuery where
  | recent (limit : UInt64)
  | thread (start stop : UInt64)
  | after (cursor limit : UInt64)

def HistoryQuery.read (query : HistoryQuery) (digest : Digest) (session : ChatSession)
    (answers : ChatAnswers) (channel : RtChannelId) (ledger : ChatLedger) :
    Except Client.Error (ChatHistory × ChatLedger) :=
  match query with
  | .recent limit => readRecent digest session answers channel limit ledger
  | .thread start stop => readThread digest session answers channel start stop ledger
  | .after cursor limit => (readAfter digest session answers channel cursor limit ledger).map
      fun result => (result.1.1, result.2)

/-- Every anchor is that of a message that the server has stored. -/
def LedgerOf (digest : Digest) (db : RtDatabase) (ledger : ChatLedger) : Prop :=
  ∀ row ∈ ledger, OfLog digest (db.Stores row.scope.channel) row.anchor

section

variable {digest : Digest} {session : ChatSession} {db rows predecessors : RtDatabase}
  {answers : ChatAnswers} {channel : RtChannelId} {ledger : ChatLedger}

theorem OfLog.grows (h : Grows db rows) (ha : OfLog digest (db.Stores channel) a) :
    OfLog digest (rows.Stores channel) a := by
  obtain ⟨m, hm, hanchor⟩ := ha
  exact ⟨m, h.stores hm, hanchor⟩

theorem LedgerOf.grows (h : LedgerOf digest db ledger) (hgrows : Grows db rows) :
    LedgerOf digest rows ledger :=
  fun row hrow => (h row hrow).grows hgrows

variable {messages : List RtMessage}

theorem isNewestFirst_of_sorted
    (h : messages.Pairwise fun a b => before false a.sequence b.sequence) :
    isNewestFirst messages = true := by
  induction messages with
  | nil => rfl
  | cons a messages ih =>
    obtain ⟨hfirst, hrest⟩ := List.pairwise_cons.mp h
    cases messages with
    | nil => rfl
    | cons b messages =>
      rw [isNewestFirst, ih hrest, Bool.and_true]
      exact decide_eq_true (hfirst b List.mem_cons_self)

theorem checkRange_served {start stop : UInt64} {last : Option UInt64}
    (hwithin : ∀ m ∈ messages, min start stop ≤ m.sequence ∧ m.sequence ≤ max start stop)
    (hsorted : messages.Pairwise fun a b => before (start ≤ stop) a.sequence b.sequence)
    (hlast : ∀ prev ∈ last, ∀ m ∈ messages, before (start ≤ stop) prev m.sequence) :
    checkRange start stop last messages = .ok () := by
  induction messages generalizing last with
  | nil => rfl
  | cons m messages ih =>
    obtain ⟨hfirst, hrest⟩ := List.pairwise_cons.mp hsorted
    rw [List.forall_mem_cons] at hwithin
    rw [checkRange, if_neg]
    · refine ih hwithin.2 hrest fun prev hprev other hother => ?_
      cases hprev
      exact hfirst other hother
    · rw [not_or, not_or, UInt64.not_lt, UInt64.not_lt]
      refine ⟨hwithin.1.1, hwithin.1.2, fun hany => ?_⟩
      rw [Option.any_eq_true] at hany
      obtain ⟨prev, hprev, hwrong⟩ := hany
      have hbefore := hlast prev hprev m List.mem_cons_self
      by_cases hascending : start ≤ stop
      · simp only [hascending, decide_true, if_true, decide_eq_true_eq] at hbefore hwrong
        exact UInt64.not_le.mpr hbefore hwrong
      · simp only [hascending, decide_false, if_false, decide_eq_true_eq]
          at hbefore hwrong
        exact UInt64.not_le.mpr hbefore hwrong

theorem before_ne {ascending : Bool} {a b : UInt64} (h : before ascending a b) : a ≠ b := by
  rintro rfl
  unfold before at h
  split at h
  · exact UInt64.lt_irrefl a h
  · exact UInt64.lt_irrefl a h

/-- A page that the server has served is verified against the ledger and the predecessors. -/
theorem ensures_verifyServed (hrows : Log rows) (hanswers : HonestAnswers channel rows predecessors
      answers) (hledger : LedgerOf digest rows ledger) {md : RtChannelMetadata}
    (hmd : md.id = channel) {ascending : Bool} (hserved : Served rows channel ascending messages) :
    Ensures NotAccused (HonestHistory digest (predecessors.Stores channel) (session.scope channel)
        ledger)
      (verifyPage digest session md answers.predecessors ledger messages) := by
  subst hmd
  obtain ⟨hlog, hgrows⟩ := hrows.run hanswers.later
  refine ensures_verifyPage (honestLog hlog md.id) (fun row hrow hscope => ?_)
    (fun m hm => hgrows.stores (hserved.stored m hm)) (hserved.sorted.imp before_ne)
    fun requested => ?_
  · have hof := (hledger.grows hgrows) row hrow
    rw [hscope] at hof
    exact hof
  · refine (hanswers.predecessors ⟨md.id, [], requested⟩).mono (fun _ => id) ?_
    rintro page ⟨actor, now, hpage⟩
    have hthread := hlog.rtThread_served hpage
    exact ⟨List.forall₂_nil_left_iff.mp hthread.ranges, hthread.stored, hthread.distinct⟩

theorem ensures_range (hrows : Log rows)
    (hanswers : HonestAnswers channel rows predecessors answers)
    (start stop : UInt64) :
    Ensures NotAccused (fun messages => Served rows channel (start ≤ stop) messages)
      (range answers channel start stop) := by
  refine Ensures.guard (fun _ _ => nofun) fun _ => ?_
  refine (hanswers.thread ⟨channel, [⟨start, stop⟩], []⟩).bind ?_
  rintro page ⟨actor, now, hpage⟩
  have hthread := hrows.rtThread_served hpage
  obtain ⟨ranges, sequences⟩ := page
  obtain ⟨messages, rest, hserved, hrest, rfl⟩ := List.forall₂_cons_left_iff.mp hthread.ranges
  obtain rfl := List.forall₂_nil_left_iff.mp hrest
  have hnone : sequences = [] := List.eq_nil_iff_forall_not_mem.mpr fun m hm =>
    List.not_mem_nil (hthread.stored m hm).2
  subst hnone
  have hchecked : checkRange start stop none messages = .ok () :=
    checkRange_served hserved.within hserved.served.sorted nofun
  show Ensures _ _ (checkRange start stop none messages >>= fun _ => .ok messages)
  rw [hchecked]
  exact hserved.served

theorem ensures_rowsAfter (hrows : Log rows)
    (hanswers : HonestAnswers channel rows predecessors answers) (head cursor limit : UInt64) :
    Ensures NotAccused (fun result => ∃ ascending, Served rows channel ascending result.1)
      (rowsAfter answers channel head cursor limit) := by
  unfold rowsAfter
  split
  · exact (ensures_range hrows hanswers _ _).map fun messages hserved => ⟨_, hserved⟩
  · exact ⟨true, fun m hm => (List.not_mem_nil hm).elim, List.Pairwise.nil⟩

/-- No read accuses anybody, and the ledger stays one of stored messages. -/
theorem ensures_read (session : ChatSession) (hrows : Log rows)
    (hanswers : HonestAnswers channel rows predecessors answers)
    (hledger : LedgerOf digest rows ledger) (query : HistoryQuery) :
    Ensures NotAccused (HonestHistory digest (predecessors.Stores channel) (session.scope channel)
        ledger) (query.read digest session answers channel ledger) := by
  cases query with
  | recent limit =>
    show Ensures _ _ (readRecent digest session answers channel limit ledger)
    refine Ensures.guard (fun _ _ => nofun) fun hlimit => ?_
    refine hanswers.channel.bind fun md hmd => (hanswers.recents _).bind ?_
    rintro messages ⟨actor, now, hmessages⟩
    obtain ⟨hserved, hlength⟩ := hrows.rtRecents_served hmessages
    refine Ensures.guard (fun hmismatch => ?_) fun _ =>
      ensures_verifyServed hrows hanswers hledger hmd hserved
    rw [isNewestFirst_of_sorted hserved.sorted] at hmismatch
    have hpositive : limit ≠ 0 := fun hzero => hlimit (.inl (by simp [hzero]))
    have hfits : messages.length ≤ limit.toNat := hlength hpositive
    simp only [Bool.not_true, Bool.false_eq_true, or_false] at hmismatch
    omega
  | thread start stop =>
    refine hanswers.channel.bind fun md hmd => (ensures_range hrows hanswers start stop).bind ?_
    intro messages hserved
    exact ensures_verifyServed hrows hanswers hledger hmd hserved
  | after cursor limit =>
    have hread : Ensures NotAccused (fun result =>
        HonestHistory digest (predecessors.Stores channel) (session.scope channel) ledger
          (result.1.1, result.2))
        (readAfter digest session answers channel cursor limit ledger) := by
      refine Ensures.guard (fun _ _ => nofun) fun _ => hanswers.channel.bind fun md hmd => ?_
      refine (ensures_rowsAfter hrows hanswers _ cursor limit).bind ?_
      rintro ⟨messages, gap⟩ ⟨ascending, hserved⟩
      exact (ensures_verifyServed hrows hanswers hledger hmd hserved).bind fun _ => id
    exact hread.map fun _ => id

end

/-! ## Runs -/

/-- A chat store, and a client with its anchors. -/
structure ChatReader where
  db : RtDatabase
  ledger : ChatLedger

/-- One step: a call of the server, or a read of the client that succeeds. -/
inductive ChatReader.Step (digest : Digest) : ChatReader → ChatReader → Prop where
  | serve {db db' : RtDatabase} {ledger : ChatLedger} (h : RtDatabase.Step db db') :
      Step digest ⟨db, ledger⟩ ⟨db', ledger⟩
  | read {db rows predecessors : RtDatabase} {ledger ledger' : ChatLedger} {session : ChatSession}
      {channel : RtChannelId} {answers : ChatAnswers} {query : HistoryQuery} {history : ChatHistory}
      (hrows : ReflTransGen RtDatabase.Step db rows)
      (hanswers : HonestAnswers channel rows predecessors answers)
      (h : query.read digest session answers channel ledger = .ok (history, ledger')) :
      Step digest ⟨db, ledger⟩ ⟨predecessors, ledger'⟩

/-- A state that a run leads to from a store without channels and a client without anchors. -/
def ChatReader.Reached (digest : Digest) (reader : ChatReader) : Prop :=
  ∃ start, Start start ∧ ReflTransGen (ChatReader.Step digest) ⟨start, []⟩ reader

theorem ChatReader.Reached.sound {digest : Digest} {reader : ChatReader}
    (h : reader.Reached digest) : Log reader.db ∧ LedgerOf digest reader.db reader.ledger := by
  obtain ⟨start, hstart, hrun⟩ := h
  induction hrun with
  | refl => exact ⟨hstart.log, fun row hrow => (List.not_mem_nil hrow).elim⟩
  | tail _ hstep ih =>
    obtain ⟨hlog, hledger⟩ := ih
    cases hstep with
    | serve h => exact ⟨h.log hlog, hledger.grows (h.grows hlog)⟩
    | read hrows hanswers h =>
      obtain ⟨hlogRows, hgrowsRows⟩ := hlog.run hrows
      obtain ⟨hlogAfter, hgrowsAfter⟩ := hlogRows.run hanswers.later
      have hread := (ensures_read _ hlogRows hanswers (hledger.grows hgrowsRows) _).of_ok h
      refine ⟨hlogAfter, fun row hrow => ?_⟩
      rcases hread.ledger row hrow with hold | ⟨hscope, hof⟩
      · exact (hledger row hold).grows (hgrowsRows.trans hgrowsAfter)
      · rw [hscope]
        exact hof

/-- Honest history is never accused: whatever happened before, no read of a client fails with an
    error of channel integrity, and no message gets the verdict of a contradiction. -/
theorem history_never_accused {digest : Digest} {reader : ChatReader}
    (hreached : reader.Reached digest) {rows predecessors : RtDatabase}
    (hrows : ReflTransGen RtDatabase.Step reader.db rows) {session : ChatSession}
    {channel : RtChannelId} {answers : ChatAnswers}
    (hanswers : HonestAnswers channel rows predecessors answers) (query : HistoryQuery) :
    (∀ message, query.read digest session answers channel reader.ledger ≠
        .error (.chatChannelIntegrity message)) ∧
      ∀ history ledger, query.read digest session answers channel reader.ledger =
        .ok (history, ledger) →
        ∀ row ∈ history.messages, row.content ≠ predecessorContradiction := by
  obtain ⟨hlog, hledger⟩ := hreached.sound
  obtain ⟨hlogRows, hgrows⟩ := hlog.run hrows
  have hread := ensures_read session hlogRows hanswers (hledger.grows hgrows) query
  refine ⟨fun message hfailed => ?_, fun history ledger hok => (hread.of_ok hok).verdicts⟩
  exact hread.of_error hfailed message rfl

/-! ## A client that reads while messages are sent -/

namespace HistoryRun

open RtSample

def reply : RtSend :=
  ⟨⟨.replicate 16 2, .replicate 16 1, 1, 1, .basic, none⟩, channelId.short,
    .encrypted ⟨List.replicate 16 2, key⟩, 1⟩

def replied : RtDatabase := after sent (sent.rtSend aliceActor reply 7000)

/-- A session that opens every box as the empty text. -/
def session : ChatSession :=
  ⟨LinkSample.host, LinkSample.uid, LinkSample.team, some [⟨minRole, 1, []⟩],
    chatHistoryBytes, fun _ => some fun _ _ => some []⟩

/-- The answers while the store is as given. -/
def answers (db : RtDatabase) : ChatAnswers where
  channel := .ok newChannel.metadata
  recents := fun arg => (db.rtRecents aliceActor arg 8000).mapError fun _ => .chatLimit "server"
  thread := fun query => (db.rtThread aliceActor query 8000).mapError fun _ => .chatLimit "server"
  predecessors := fun query =>
    (db.rtThread aliceActor query 8000).mapError fun _ => .chatLimit "server"

theorem answered {α : Type} {serve : RealtimeActor → UInt64 → Except ServerDb.Error α} :
    Answered serve ((serve aliceActor 8000).mapError fun _ => .chatLimit "server") :=
  (ensures_mapError (fun _ _ => nofun) _).mono (fun _ => id) fun _ hvalue =>
    ⟨aliceActor, 8000, hvalue⟩

theorem answers_honest (db : RtDatabase) : HonestAnswers channelId db db (answers db) :=
  ⟨rfl, fun _ => answered, fun _ => answered, .refl, fun _ => answered⟩

def query : HistoryQuery := .recent 10

/-- The anchors after the first message was read. -/
def ledger : ChatLedger :=
  (((query.read HistorySample.digest session (answers sent) channelId []).toOption).map
    (·.2)).getD []

def reader : ChatReader := ⟨replied, ledger⟩

theorem reader_reached : reader.Reached HistorySample.digest := by
  obtain ⟨_, hcreate⟩ := created_ok
  obtain ⟨_, hsend⟩ := sent_ok
  obtain ⟨_, hreply⟩ : ∃ value, sent.rtSend aliceActor reply 7000 = .ok (value, replied) :=
    eq_ok_after (by decide +kernel)
  obtain ⟨history, hread⟩ : ∃ history,
      query.read HistorySample.digest session (answers sent) channelId [] =
        .ok (history, ledger) := by
    have hok :
        (query.read HistorySample.digest session (answers sent) channelId []).isOk = true := by
      decide +kernel
    unfold ledger
    cases hread : query.read HistorySample.digest session (answers sent) channelId [] with
    | error error =>
      rw [hread] at hok
      cases hok
    | ok result => exact ⟨result.1, rfl⟩
  refine ⟨start, start_starts, ?_⟩
  refine ((ReflTransGen.single (.serve (.create hcreate))).tail (.serve (.send hsend))).tail
    (.read .refl (answers_honest sent) hread) |>.tail (.serve (.send hreply))

/-- The reply is read next to the anchor of the first message. -/
theorem reply_not_accused : reader.ledger.length = 1 ∧
    ((HistoryQuery.thread 2 2).read HistorySample.digest session (answers reader.db) channelId
      reader.ledger).isOk = true ∧
    ∀ message, (HistoryQuery.thread 2 2).read HistorySample.digest session (answers reader.db)
      channelId reader.ledger ≠ .error (.chatChannelIntegrity message) :=
  ⟨by decide +kernel, by decide +kernel,
    (history_never_accused reader_reached .refl (answers_honest reader.db) (.thread 2 2)).1⟩

end HistoryRun

end Foks.Chat
