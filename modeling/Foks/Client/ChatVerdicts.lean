/-
  What the verdicts on a page of history rest on.

  The two passes over a page have a closed form. Whether the pointer of a row contradicts the page
  or the anchors does not depend on the verdicts so far, so after the first pass a row is condemned
  exactly when it contradicts them (`checkPredecessors_eq_ok`); a predecessor that is fetched
  condemns the rows that are still text and contradict it (`acceptPredecessors_eq_ok`).

  A row that was condemned by a row of the page stays so when that row is condemned later by a
  fetched predecessor, and then no record of the evidence is kept. The pointer of a fetched
  predecessor is not compared with anything before it becomes an anchor.

  No pass drops a row, so an incremental read that reports no gap is complete
  (`readAfter_complete`).
-/
import Foks.Client.AnchorLedger

namespace Foks.Client

open Foks.Lib Foks.Proto Foks.Crypto

/-! ## The rows of a page -/

variable {m : RtMessage} {row : ChatMessage} {taken rows : List RtMessage} {ledger' : ChatLedger}
  {page : PageJudged} {messages : List ChatMessage} {content : ChatContent}

section

variable {digest : Digest} {session : ChatSession} {md : RtChannelMetadata}

/-- A row of the page was opened and observed. -/
structure RowOpened (digest : Digest) (session : ChatSession) (md : RtChannelMetadata)
    (m : RtMessage) (opened : ChatMessage × ChatAnchor) : Prop where
  message : opened.1.message = m
  content : session.openMessage md m = .ok opened.1.content
  anchor : anchor digest m = .ok opened.2

theorem openRows_eq_ok {before : List RtMessage} {opened : List (ChatMessage × ChatAnchor)}
    (h : openRows digest session md before rows = .ok opened) :
    List.Forall₂ (RowOpened digest session md) rows opened ∧
      rows.Pairwise (fun a b => a.metadata.id ≠ b.metadata.id ∧ a.sequence ≠ b.sequence) ∧
      ∀ old ∈ before, ∀ m ∈ rows, old.metadata.id ≠ m.metadata.id ∧ old.sequence ≠ m.sequence := by
  induction rows generalizing before opened with
  | nil =>
    cases h
    exact ⟨.nil, List.Pairwise.nil, fun _ _ m hm => (List.not_mem_nil hm).elim⟩
  | cons m rows ih =>
    obtain ⟨hnew, hopen⟩ := ite_error_eq_ok.mp h
    obtain ⟨observed, hobserved, hread⟩ := bind_eq_ok.mp hopen
    obtain ⟨content, hcontent, htail⟩ := bind_eq_ok.mp hread
    obtain ⟨rest, hrest, hdone⟩ := bind_eq_ok.mp htail
    cases hdone
    obtain ⟨hforall, hpairwise, hbefore⟩ := ih hrest
    refine ⟨.cons ⟨rfl, hcontent, hobserved⟩ hforall,
      List.pairwise_cons.mpr ⟨hbefore m (by simp), hpairwise⟩, fun old hold other hother => ?_⟩
    rcases List.mem_cons.mp hother with rfl | hother
    · simp only [List.any_eq_true, Bool.or_eq_true, decide_eq_true_eq, not_exists, not_and,
        not_or] at hnew
      exact hnew old hold
    · exact hbefore old (List.mem_append_left _ hold) other hother

/-- A message that opens as text was numbered, and names an earlier message if any. -/
theorem openMessage_text (h : session.openMessage md m = .ok content)
    (htext : content.isText = true) :
    m.sequence ≠ 0 ∧ m.metadata.previousSequence < m.sequence := by
  obtain ⟨hsequence, hsender⟩ := ite_error_eq_ok.mp h
  obtain ⟨sender, _, hauthored⟩ := bind_eq_ok.mp hsender
  refine ⟨fun hzero => hsequence (.inl hzero), ?_⟩
  rcases ite_eq_ok hauthored with ⟨_, hcontent⟩ | ⟨hvalid, _⟩
  · cases hcontent
    cases htext
  · simp only [not_or] at hvalid
    exact UInt64.not_le.mp hvalid.2.1

end

/-! ## The first pass -/

def condemn (row : ChatMessage) : ChatMessage := { row with content := predecessorContradiction }

/-- What the anchors say about a sequence number. -/
def storedId (ledger : ChatLedger) (scope : ChatScope) (sequence : UInt64) : Option RtMessageId :=
  (ledger.anchorWhere scope fun anchor => anchor.sequence = sequence).map (·.id)

/-- What the page says about a sequence number. -/
def pageId (messages : List ChatMessage) (sequence : UInt64) : Option RtMessageId :=
  (messages.find? fun row => row.message.sequence = sequence).map (·.message.metadata.id)

section

variable (ledger : ChatLedger) (scope : ChatScope) (messages : List ChatMessage)

def mappedId (sequence : UInt64) : Option RtMessageId :=
  (pageId messages sequence).or (storedId ledger scope sequence)

/-- The pointer of the row, which is text, is not what the page or the anchors say. -/
def contradicts (row : ChatMessage) : Bool :=
  row.content.isText && row.message.metadata.previousSequence ≠ 0 &&
    (mappedId ledger scope messages row.message.metadata.previousSequence).any
      (· ≠ row.message.metadata.previousId)

/-- The page after the rows `done` were checked. -/
def judged (done : List Nat) : List ChatMessage :=
  messages.mapIdx fun index row =>
    if index ∈ done ∧ contradicts ledger scope messages row then condemn row else row

/-- What a contradiction found in the first pass rests on: the anchors, or a row of the page that
    is text at the time. -/
def Anchored (state : List ChatMessage) (row : ChatMessage) : Prop :=
  storedId ledger scope row.message.metadata.previousSequence =
      mappedId ledger scope messages row.message.metadata.previousSequence ∨
    ∃ other ∈ state, other.message.sequence = row.message.metadata.previousSequence ∧
      other.content.isText = true

end

variable {done : List Nat}

section

variable {ledger : ChatLedger} {scope : ChatScope} {messages : List ChatMessage}

theorem getElem?_judged (done : List Nat) (index : Nat) :
    (judged ledger scope messages done)[index]? = (messages[index]?).map fun row =>
      if index ∈ done ∧ contradicts ledger scope messages row then condemn row else row := by
  rw [judged, List.getElem?_mapIdx]

theorem judged_nil : judged ledger scope messages [] = messages := by
  refine List.ext_getElem? fun index => ?_
  rw [getElem?_judged]
  simp

theorem map_message_judged (done : List Nat) :
    (judged ledger scope messages done).map (·.message) = messages.map (·.message) := by
  refine List.ext_getElem? fun index => ?_
  rw [List.getElem?_map, List.getElem?_map, getElem?_judged]
  cases messages[index]? with
  | none => rfl
  | some row =>
    simp only [Option.map_some]
    split <;> rfl

theorem pageId_eq (messages : List ChatMessage) (sequence : UInt64) :
    pageId messages sequence =
      ((messages.map (·.message)).find? fun m => m.sequence = sequence).map (·.metadata.id) := by
  rw [pageId, List.find?_map, Option.map_map]
  rfl

theorem pageId_judged (done : List Nat) (sequence : UInt64) :
    pageId (judged ledger scope messages done) sequence = pageId messages sequence := by
  rw [pageId_eq, pageId_eq, map_message_judged]

variable {state' state : List ChatMessage} {index : Nat}

theorem settlePredecessor_eq_ok {need need' : SequenceSet} {stored : Option RtMessageId}
    (h : settlePredecessor state need index row stored = .ok (state', need')) :
    ((pageId state row.message.metadata.previousSequence).or stored = none ∧ state' = state ∧
        need' = need.insert row.message.metadata.previousSequence) ∨
      ((pageId state row.message.metadata.previousSequence).or stored =
        some row.message.metadata.previousId ∧ state' = state ∧ need' = need) ∨
      ∃ id, (pageId state row.message.metadata.previousSequence).or stored = some id ∧
        id ≠ row.message.metadata.previousId ∧ state' = state.set index (condemn row) ∧
        need' = need ∧ (stored = some id ∨ ∃ other ∈ state,
          other.message.sequence = row.message.metadata.previousSequence ∧
          other.content.isText = true) := by
  have hpage : (state.find? fun other =>
        other.message.sequence = row.message.metadata.previousSequence).map
      (·.message.metadata.id) = pageId state row.message.metadata.previousSequence := rfl
  unfold settlePredecessor at h
  simp only [hpage] at h
  split at h
  · rename_i hnone
    cases h
    exact .inl ⟨hnone, rfl, rfl⟩
  · rename_i id hid
    rcases ite_eq_ok h with ⟨hsame, hdone⟩ | ⟨hdiffer, hjudge⟩
    · cases hdone
      rw [hsame] at hid
      exact .inr (.inl ⟨hid, rfl, rfl⟩)
    · rcases ite_eq_ok hjudge with ⟨hanchored, hdone⟩ | ⟨_, hfailed⟩
      · cases hdone
        refine .inr (.inr ⟨id, hid, hdiffer, rfl, rfl, hanchored.imp_right fun hany => ?_⟩)
        obtain ⟨other, hother, hmatch⟩ := List.any_eq_true.mp hany
        simp only [Bool.and_eq_true, decide_eq_true_eq] at hmatch
        exact ⟨other, hother, hmatch⟩
      · cases hfailed

/-- A round for a row that does not contradict changes nothing. -/
theorem judged_concat_of_not
    (hno : ∀ row, messages[index]? = some row → contradicts ledger scope messages row = false) :
    judged ledger scope messages (done ++ [index]) = judged ledger scope messages done := by
  refine List.ext_getElem? fun other => ?_
  rw [getElem?_judged, getElem?_judged]
  cases hrow : messages[other]? with
  | none => rfl
  | some row =>
    by_cases hother : other = index
    · subst hother
      simp [hno row hrow]
    · simp [hother]

theorem judged_concat_of_contradicts (hrow : messages[index]? = some row)
    (hyes : contradicts ledger scope messages row = true) :
    judged ledger scope messages (done ++ [index]) =
      (judged ledger scope messages done).set index (condemn row) := by
  have hlength : index < (judged ledger scope messages done).length := by
    rw [judged, List.length_mapIdx]
    exact (List.getElem?_eq_some_iff.mp hrow).1
  refine List.ext_getElem? fun other => ?_
  rw [List.getElem?_set, getElem?_judged, getElem?_judged]
  by_cases hother : index = other
  · subst hother
    simp [hlength, hrow, hyes]
  · have hne : other ≠ index := fun heq => hother heq.symm
    simp [hother, hne]

/-- One round of the first pass condemns the row exactly when its pointer contradicts. -/
theorem checkPredecessor_eq_ok {need need' : SequenceSet} (hnew : index ∉ done)
    (h : checkPredecessor ledger scope (judged ledger scope messages done, need) index =
      .ok (state', need')) : state' = judged ledger scope messages (done ++ [index]) ∧
      (∀ sequence ∈ need', sequence ∈ need ∨ pageId messages sequence = none) ∧
      ∀ row, messages[index]? = some row → contradicts ledger scope messages row = true →
        Anchored ledger scope messages (judged ledger scope messages done) row := by
  -- a round that changes no row
  have hquiet (hno : ∀ row, messages[index]? = some row →
      contradicts ledger scope messages row = false) :
      judged ledger scope messages done = judged ledger scope messages (done ++ [index]) ∧
        ∀ row, messages[index]? = some row → contradicts ledger scope messages row = true →
          Anchored ledger scope messages (judged ledger scope messages done) row := by
    refine ⟨(judged_concat_of_not hno).symm, fun row hrow hyes => ?_⟩
    rw [hno row hrow] at hyes
    cases hyes
  unfold checkPredecessor at h
  split at h
  · rename_i hnone
    cases h
    rw [getElem?_judged, Option.map_eq_none_iff] at hnone
    obtain ⟨hsame, hanchored⟩ := hquiet fun row hrow => by
      rw [hnone] at hrow
      cases hrow
    exact ⟨hsame, fun _ hmem => .inl hmem, hanchored⟩
  · rename_i found hfound
    rw [getElem?_judged] at hfound
    obtain ⟨row, hrow, hsame⟩ := Option.map_eq_some_iff.mp hfound
    rw [if_neg (fun hdone => hnew hdone.1)] at hsame
    subst hsame
    have honly {other : ChatMessage} (hother : messages[index]? = some other) : other = row :=
      Option.some.inj (hother.symm.trans hrow)
    have hquietRow (hno : contradicts ledger scope messages row = false) :=
      hquiet fun other hother => by
        rw [honly hother]
        exact hno
    split at h
    · rename_i hskip
      cases h
      have hno : contradicts ledger scope messages row = false := by
        unfold contradicts
        rcases hskip with hskip | hskip
        · rw [Bool.not_eq_true'] at hskip
          rw [hskip]
          rfl
        · simp [hskip]
      obtain ⟨hstate, hanchored⟩ := hquietRow hno
      exact ⟨hstate, fun _ hmem => .inl hmem, hanchored⟩
    · rename_i hchecked
      rw [not_or] at hchecked
      have htext : row.content.isText = true := by simpa using hchecked.1
      obtain ⟨stored, hstored, hsettle⟩ := bind_eq_ok.mp h
      obtain ⟨value, hvalue, hfound⟩ := map_eq_ok.mp hstored
      rw [ChatInbox.sqliteInteger_eq_ok hvalue] at hfound
      subst hfound
      have hmapped : (pageId (judged ledger scope messages done)
            row.message.metadata.previousSequence).or
          (storedId ledger scope row.message.metadata.previousSequence) =
            mappedId ledger scope messages row.message.metadata.previousSequence := by
        rw [pageId_judged]
        rfl
      rcases settlePredecessor_eq_ok hsettle with ⟨hnone, rfl, rfl⟩ | ⟨hagrees, rfl, rfl⟩ |
        ⟨id, hid, hdiffer, rfl, rfl, hjudge⟩
      · have hmap := hmapped.symm.trans hnone
        obtain ⟨hstate, hanchored⟩ := hquietRow (by simp [contradicts, hmap])
        refine ⟨hstate, fun sequence hmem => ?_, hanchored⟩
        rcases Std.ExtTreeSet.mem_insert.mp hmem with heq | hmem
        · rw [← Std.LawfulEqCmp.eq_of_compare heq]
          rw [pageId_judged] at hnone
          exact .inr (Option.or_eq_none_iff.mp hnone).1
        · exact .inl hmem
      · have hmap := hmapped.symm.trans hagrees
        obtain ⟨hstate, hanchored⟩ := hquietRow (by simp [contradicts, hmap])
        exact ⟨hstate, fun _ hmem => .inl hmem, hanchored⟩
      · have hmap := hmapped.symm.trans hid
        have hyes : contradicts ledger scope messages row = true := by
          simp [contradicts, hmap, htext, hchecked.2, hdiffer]
        refine ⟨(judged_concat_of_contradicts hrow hyes).symm, fun _ hmem => .inl hmem,
          fun other hother _ => ?_⟩
        rw [honly hother]
        refine hjudge.imp (fun hstored => ?_) fun hpage => hpage
        rw [hmap]
        exact hstored

theorem checkPredecessors_eq_ok {rest : List Nat} {need need' : SequenceSet}
    (hnodup : (done ++ rest).Nodup)
    (h : rest.foldlM (checkPredecessor ledger scope) (judged ledger scope messages done, need) =
      .ok (state', need')) : state' = judged ledger scope messages (done ++ rest) ∧
      (∀ sequence ∈ need', sequence ∈ need ∨ pageId messages sequence = none) ∧
      ∀ pre index post, rest = pre ++ index :: post → ∀ row, messages[index]? = some row →
        contradicts ledger scope messages row = true →
        Anchored ledger scope messages (judged ledger scope messages (done ++ pre)) row := by
  induction rest generalizing done need with
  | nil =>
    cases h
    rw [List.append_nil]
    exact ⟨rfl, fun _ hmem => .inl hmem, fun pre index post hsplit => by simp at hsplit⟩
  | cons first rest ih =>
    obtain ⟨⟨mid, needMid⟩, hfirst, hrest⟩ := foldlM_cons_eq_ok.mp h
    have hnew : first ∉ done := fun hmem =>
      (List.nodup_append.mp hnodup).2.2 first hmem first List.mem_cons_self rfl
    obtain ⟨rfl, hneed, hanchored⟩ := checkPredecessor_eq_ok hnew hfirst
    obtain ⟨hstate, hneeds, hothers⟩ := ih (by simpa using hnodup) hrest
    refine ⟨by simpa using hstate, fun sequence hmem => ?_, fun pre index post hsplit => ?_⟩
    · rcases hneeds sequence hmem with hmid | hnone
      · exact hneed sequence hmid
      · exact .inr hnone
    · cases pre with
      | nil =>
        obtain ⟨rfl, _⟩ := List.cons.inj hsplit
        rw [List.append_nil]
        exact hanchored
      | cons head pre =>
        obtain ⟨rfl, htail⟩ := List.cons.inj hsplit
        have hmore := hothers pre index post htail
        rwa [List.append_assoc] at hmore

theorem mem_oldestFirst : index ∈ oldestFirst messages ↔ index < messages.length := by
  rw [oldestFirst, List.mem_insertionSort, List.mem_range]

theorem nodup_oldestFirst (messages : List ChatMessage) : (oldestFirst messages).Nodup :=
  (List.perm_insertionSort _ _).nodup_iff.mpr List.nodup_range

theorem pairwise_oldestFirst (messages : List ChatMessage) : (oldestFirst messages).Pairwise
    fun a b => (sequenceAt messages a).toNat ≤ (sequenceAt messages b).toNat := by
  exact List.pairwise_insertionSort _ _

/-- The verdict of the first pass. -/
def firstVerdict (ledger : ChatLedger) (scope : ChatScope) (messages : List ChatMessage)
    (row : ChatMessage) : ChatMessage :=
  if contradicts ledger scope messages row then condemn row else row

theorem judged_all (hall : ∀ index < messages.length, index ∈ done) :
    judged ledger scope messages done = messages.map (firstVerdict ledger scope messages) := by
  refine List.ext_getElem? fun index => ?_
  rw [getElem?_judged, List.getElem?_map]
  cases hrow : messages[index]? with
  | none => rfl
  | some row =>
    have hdone := hall index (List.getElem?_eq_some_iff.mp hrow).1
    simp [hdone, firstVerdict]

/-- After the first pass the rows that contradict are condemned, each on the ground of an anchor or
    of a row that the pass does not condemn. -/
theorem firstPass_eq_ok {need : SequenceSet}
    (hearlier : ∀ row ∈ messages, row.content.isText = true →
      row.message.metadata.previousSequence < row.message.sequence)
    (h : (oldestFirst messages).foldlM (checkPredecessor ledger scope) (messages, ∅) =
      .ok (state, need)) : state = messages.map (firstVerdict ledger scope messages) ∧
      (∀ sequence ∈ need, pageId messages sequence = none) ∧
      ∀ row ∈ messages, contradicts ledger scope messages row = true →
        storedId ledger scope row.message.metadata.previousSequence =
            mappedId ledger scope messages row.message.metadata.previousSequence ∨
          ∃ other ∈ messages, other.message.sequence = row.message.metadata.previousSequence ∧
            other.content.isText = true ∧ contradicts ledger scope messages other = false := by
  have hstart : (oldestFirst messages).foldlM (checkPredecessor ledger scope)
      (judged ledger scope messages [], ∅) = .ok (state, need) := by
    rw [judged_nil]
    exact h
  obtain ⟨hstate, hneed, hanchored⟩ :=
    checkPredecessors_eq_ok (by simpa using nodup_oldestFirst messages) hstart
  refine ⟨?_, fun sequence hmem => ?_, fun row hmem hyes => ?_⟩
  · rw [hstate]
    exact judged_all fun index hindex => mem_oldestFirst.mpr hindex
  · exact (hneed sequence hmem).resolve_left Std.ExtTreeSet.not_mem_empty
  · obtain ⟨index, hrow⟩ := List.mem_iff_getElem?.mp hmem
    have hindex := (List.getElem?_eq_some_iff.mp hrow).1
    obtain ⟨pre, post, hsplit⟩ := List.append_of_mem (mem_oldestFirst.mpr hindex)
    rcases hanchored pre index post hsplit row hrow hyes with hstored | hpage
    · exact .inl hstored
    · right
      obtain ⟨found, hfound, hsequence, htext⟩ := hpage
      obtain ⟨place, hplace⟩ := List.mem_iff_getElem?.mp hfound
      rw [List.nil_append, getElem?_judged] at hplace
      obtain ⟨other, hother, hverdict⟩ := Option.map_eq_some_iff.mp hplace
      -- the judge is older, so its own verdict was settled before
      have hmessage : found.message = other.message := by
        rw [← hverdict]
        split <;> rfl
      have hrowText : row.content.isText = true := by
        unfold contradicts at hyes
        simp only [Bool.and_eq_true] at hyes
        exact hyes.1.1
      have holder := hearlier row hmem hrowText
      have hpre : place ∈ pre := by
        have hplaceMem : place ∈ oldestFirst messages :=
          mem_oldestFirst.mpr (List.getElem?_eq_some_iff.mp hother).1
        rw [hsplit] at hplaceMem
        rcases List.mem_append.mp hplaceMem with hpre | hlater
        · exact hpre
        · have hsorted := pairwise_oldestFirst messages
          rw [hsplit] at hsorted
          have hle : (sequenceAt messages index).toNat ≤ (sequenceAt messages place).toNat := by
            rcases List.mem_cons.mp hlater with rfl | hpost
            · exact Nat.le_refl _
            · exact (List.pairwise_cons.mp (List.pairwise_append.mp hsorted).2.1).1 place hpost
          simp only [sequenceAt, hrow, hother, Option.map_some, Option.getD_some] at hle
          rw [hmessage] at hsequence
          rw [hsequence] at hle
          exact absurd (UInt64.lt_iff_toNat_lt.mp holder) (Nat.not_lt.mpr hle)
      have hno : contradicts ledger scope messages other = false := by
        by_contra hcontra
        rw [if_pos ⟨hpre, by simpa using hcontra⟩] at hverdict
        rw [← hverdict] at htext
        cases htext
      rw [if_neg (by simp [hno])] at hverdict
      subst hverdict
      exact ⟨other, List.mem_iff_getElem?.mpr ⟨place, hother⟩, hsequence, htext, hno⟩

end

/-! ## The predecessors that were fetched -/

/-- The row is text and its pointer is not the message. -/
def demotes (m : RtMessage) (row : ChatMessage) : Bool :=
  row.content.isText && row.message.metadata.previousSequence = m.sequence &&
    row.message.metadata.previousId ≠ m.metadata.id

/-- The verdict of the second pass. -/
def secondVerdict (taken : List RtMessage) (row : ChatMessage) : ChatMessage :=
  if taken.any fun m => demotes m row then condemn row else row

/-- The fetched messages that the budget leaves room for. -/
def takeFitting (session : ChatSession) : Nat → List RtMessage → List RtMessage
  | _, [] => []
  | encodedBytes, m :: rest =>
    let bytes := ((m.encoded.toOption).map (·.length)).getD 0
    if session.historyByteLimit < chatHistoryBytes then
      if session.historyByteLimit < encodedBytes + bytes then takeFitting session encodedBytes rest
      else m :: takeFitting session (encodedBytes + bytes) rest
    else m :: takeFitting session encodedBytes rest

/-- The predecessors that a page makes use of. -/
def takenPredecessors (session : ChatSession) (md : RtChannelMetadata)
    (fetch : RtThreadQuery → Except Error RtThreadPage) (state : PredecessorState) :
    List RtMessage :=
  let requested := state.need.toList.take chatPredecessors
  if requested.isEmpty then []
  else
    match fetch ⟨md.id, [], requested⟩ with
    | .error _ => []
    | .ok page => takeFitting session state.encodedBytes page.sequences

theorem takeFitting_subset (session : ChatSession) (encodedBytes : Nat) (fetched : List RtMessage) :
    takeFitting session encodedBytes fetched ⊆ fetched := by
  induction fetched generalizing encodedBytes with
  | nil => exact List.Subset.refl _
  | cons m fetched ih =>
    rw [takeFitting]
    split
    · split
      · exact List.subset_cons_of_subset m (ih _)
      · exact List.cons_subset_cons m (ih _)
    · exact List.cons_subset_cons m (ih _)

variable {fetch : RtThreadQuery → Except Error RtThreadPage} {fetched : List RtMessage}

section

variable {digest : Digest} {session : ChatSession} {md : RtChannelMetadata}

theorem condemn_not_demoted (m : RtMessage) (row : ChatMessage) : demotes m (condemn row) = false :=
  rfl

theorem secondVerdict_cons (m : RtMessage) (taken : List RtMessage) (row : ChatMessage) :
    secondVerdict (m :: taken) row = secondVerdict taken (secondVerdict [m] row) := by
  unfold secondVerdict
  by_cases hm : demotes m row = true
  · have hnone : (taken.any fun other => demotes other (condemn row)) = false := by
      rw [List.any_eq_false]
      intro other _
      exact Bool.false_ne_true
    simp [hm, hnone]
  · simp [hm]

theorem settleRow_eq_ok {authenticated : Bool} {row' : ChatMessage}
    (h : settleRow m authenticated row = .ok row') :
    row' = secondVerdict [m] row ∧ (demotes m row = true → authenticated = true) := by
  rcases ite_eq_ok h with ⟨hdemotes, hcase⟩ | ⟨hnot, hcase⟩
  · have hyes : demotes m row = true := by
      simp [demotes, hdemotes.1, hdemotes.2.1, hdemotes.2.2]
    rcases ite_eq_ok hcase with ⟨hauthenticated, hdone⟩ | ⟨_, hfailed⟩
    · cases hdone
      exact ⟨by simp [secondVerdict, hyes, condemn], fun _ => hauthenticated⟩
    · cases hfailed
  · cases hcase
    have hno : demotes m row = false := by
      by_contra hcontra
      refine hnot ?_
      simpa [demotes, and_assoc] using hcontra
    refine ⟨by simp [secondVerdict, hno], fun hyes => ?_⟩
    rw [hno] at hyes
    cases hyes

/-- What a fetched predecessor does that is made use of. -/
structure PredecessorTaken (digest : Digest) (session : ChatSession) (md : RtChannelMetadata)
    (state state' : PredecessorState) (m : RtMessage) : Prop where
  opened : ∃ content observed, session.openMessage md m = .ok content ∧
    anchor digest m = .ok observed ∧ state'.observed = state.observed ++ [observed] ∧
    state'.anchors = (if content.isText then state.anchors ++ [observed] else state.anchors) ∧
    ∀ row ∈ state.messages, demotes m row = true → content.isText = true
  messages : state'.messages = state.messages.map (secondVerdict [m])
  seen : state'.seen = state.seen ++ [m.sequence]

variable {state state' : PredecessorState} {requested : List UInt64}

theorem takePredecessor_eq_ok {bytes : Nat}
    (h : takePredecessor digest session md state m bytes = .ok state') :
    PredecessorTaken digest session md state state' m ∧ state'.encodedBytes = bytes := by
  obtain ⟨observed, hobserved, hread⟩ := bind_eq_ok.mp h
  obtain ⟨content, hcontent, hsettle⟩ := bind_eq_ok.mp hread
  obtain ⟨messages, hmessages, hdone⟩ := bind_eq_ok.mp hsettle
  cases hdone
  have hrows := mapM_eq_ok_iff.mp hmessages
  refine ⟨⟨⟨content, observed, hcontent, hobserved, rfl, rfl, fun row hrow => ?_⟩, ?_, rfl⟩, rfl⟩
  · obtain ⟨_, _, hsettled⟩ := exists_of_mem_forall₂ hrows.flip hrow
    exact (settleRow_eq_ok hsettled).2
  · have hall : List.Forall₂ (fun row row' => row' = secondVerdict [m] row) state.messages
        messages := hrows.imp fun row row' hsettled => (settleRow_eq_ok hsettled).1
    rw [← List.forall₂_eq_eq_eq, List.forall₂_map_right_iff]
    exact hall.flip

/-- The message opens as text. -/
def OpensText (session : ChatSession) (md : RtChannelMetadata) (m : RtMessage) : Prop :=
  ∃ content, session.openMessage md m = .ok content ∧ content.isText = true

/-- What the second pass does with the predecessors that are made use of. -/
structure SecondPass (digest : Digest) (session : ChatSession) (md : RtChannelMetadata)
    (requested : List UInt64) (state state' : PredecessorState) (taken : List RtMessage) :
    Prop where
  messages : state'.messages = state.messages.map (secondVerdict taken)
  requested : ∀ m ∈ taken, m.sequence ∈ requested ∧ m.sequence ∉ state.seen
  hashed : ∀ m ∈ taken, ∃ a, anchor digest m = .ok a
  distinct : taken.Pairwise fun a b => a.sequence ≠ b.sequence
  recorded : ∀ m ∈ taken, OpensText session md m →
    ∃ observed, anchor digest m = .ok observed ∧ observed ∈ state'.anchors
  anchors : ∀ a ∈ state'.anchors, a ∈ state.anchors ∨
    ∃ m ∈ taken, anchor digest m = .ok a ∧ OpensText session md m
  observed : state.observed ⊆ state'.observed ∧ state.anchors ⊆ state'.anchors
  judges : ∀ row ∈ state.messages, (taken.any fun m => demotes m row) = true →
    ∃ m ∈ taken, demotes m row = true ∧ OpensText session md m

theorem SecondPass.nil (state : PredecessorState) :
    SecondPass digest session md requested state state [] := by
  refine ⟨?_, fun m hm => (List.not_mem_nil hm).elim, fun m hm => (List.not_mem_nil hm).elim,
    List.Pairwise.nil, fun m hm => (List.not_mem_nil hm).elim, fun a ha => .inl ha,
    ⟨List.Subset.refl _, List.Subset.refl _⟩, fun row _ hany => by simp at hany⟩
  have hid : secondVerdict [] = id := rfl
  rw [hid, List.map_id]

/-- A predecessor that the budget has no room for is passed over. -/
theorem SecondPass.skip {sequence : UInt64}
    (h : SecondPass digest session md requested { state with seen := state.seen ++ [sequence] }
      state' taken) : SecondPass digest session md requested state state' taken := by
  refine ⟨h.messages, fun m hm => ⟨(h.requested m hm).1, fun hseen => ?_⟩, h.hashed, h.distinct,
    h.recorded, h.anchors, h.observed, h.judges⟩
  exact (h.requested m hm).2 (List.mem_append_left _ hseen)

theorem SecondPass.take {mid : PredecessorState}
    (hm : PredecessorTaken digest session md state mid m)
    (hrequested : m.sequence ∈ requested ∧ m.sequence ∉ state.seen)
    (h : SecondPass digest session md requested mid state' taken) :
    SecondPass digest session md requested state state' (m :: taken) := by
  obtain ⟨content, observed, hcontent, hobserved, hmidObserved, hmidAnchors, hjudge⟩ := hm.opened
  have hkept : state.anchors ⊆ mid.anchors := by
    rw [hmidAnchors]
    split
    · exact List.subset_append_left _ _
    · exact List.Subset.refl _
  refine ⟨?_, fun other hother => ?_, fun other hother => ?_,
    List.pairwise_cons.mpr ⟨fun other hother => ?_, h.distinct⟩, fun other hother htext => ?_,
    fun a ha => ?_, ⟨?_, List.Subset.trans hkept h.observed.2⟩, fun row hrow hany => ?_⟩
  · rw [h.messages, hm.messages, List.map_map]
    refine List.map_congr_left fun row _ => ?_
    rw [secondVerdict_cons]
    rfl
  · rcases List.mem_cons.mp hother with rfl | hother
    · exact hrequested
    · obtain ⟨hin, hnew⟩ := h.requested other hother
      rw [hm.seen] at hnew
      exact ⟨hin, fun hseen => hnew (List.mem_append_left _ hseen)⟩
  · rcases List.mem_cons.mp hother with rfl | hother
    · exact ⟨observed, hobserved⟩
    · exact h.hashed other hother
  · intro heq
    have hnew := (h.requested other hother).2
    rw [hm.seen, ← heq] at hnew
    exact hnew (by simp)
  · rcases List.mem_cons.mp hother with rfl | hother
    · obtain ⟨content', hcontent', htext⟩ := htext
      rw [hcontent] at hcontent'
      cases hcontent'
      refine ⟨observed, hobserved, h.observed.2 ?_⟩
      rw [hmidAnchors, if_pos htext]
      simp
    · exact h.recorded other hother htext
  · rcases h.anchors a ha with hold | ⟨other, hother, hfound⟩
    · rw [hmidAnchors] at hold
      split at hold
      · rename_i htext
        rcases List.mem_append.mp hold with hold | hnew
        · exact .inl hold
        · rw [List.mem_singleton.mp hnew]
          exact .inr ⟨m, List.mem_cons_self, hobserved, content, hcontent, htext⟩
      · exact .inl hold
    · exact .inr ⟨other, List.mem_cons_of_mem _ hother, hfound⟩
  · refine List.Subset.trans ?_ h.observed.1
    rw [hmidObserved]
    exact List.subset_append_left _ _
  · by_cases hdemotes : demotes m row = true
    · exact ⟨m, List.mem_cons_self, hdemotes, content, hcontent, hjudge row hrow hdemotes⟩
    · have hsame : secondVerdict [m] row = row := by simp [secondVerdict, hdemotes]
      have hmid : row ∈ mid.messages := by
        rw [hm.messages]
        exact List.mem_map.mpr ⟨row, hrow, hsame⟩
      obtain ⟨judge, hjudgeMem, hfound⟩ := h.judges row hmid (by simpa [hdemotes] using hany)
      exact ⟨judge, List.mem_cons_of_mem _ hjudgeMem, hfound⟩

theorem acceptPredecessors_eq_ok
    (h : fetched.foldlM (acceptPredecessor digest session md requested) state = .ok state') :
    SecondPass digest session md requested state state'
      (takeFitting session state.encodedBytes fetched) := by
  induction fetched generalizing state with
  | nil =>
    cases h
    exact SecondPass.nil _
  | cons m fetched ih =>
    obtain ⟨mid, hmid, hrest⟩ := foldlM_cons_eq_ok.mp h
    have hpass := ih hrest
    obtain ⟨hrequested, hmid⟩ := ite_error_eq_ok.mp hmid
    rw [not_or, not_not] at hrequested
    rw [takeFitting]
    split at hmid
    · rename_i hlimited
      obtain ⟨bytes, hbytes, hmid⟩ := bind_eq_ok.mp hmid
      rw [mapError_eq_ok] at hbytes
      have hsize : ((m.encoded.toOption).map (·.length)).getD 0 = bytes.length := by
        rw [hbytes]
        rfl
      rw [if_pos hlimited, hsize]
      split at hmid
      · rename_i hfull
        cases hmid
        rw [if_pos hfull]
        exact hpass.skip
      · rename_i hroom
        rw [if_neg hroom]
        obtain ⟨htaken, hused⟩ := takePredecessor_eq_ok hmid
        rw [hused] at hpass
        exact hpass.take htaken hrequested
    · rename_i hunlimited
      rw [if_neg hunlimited]
      obtain ⟨htaken, hused⟩ := takePredecessor_eq_ok hmid
      rw [hused] at hpass
      exact hpass.take htaken hrequested

theorem fetchPredecessors_eq_ok (h : fetchPredecessors digest session md fetch state = .ok state') :
    SecondPass digest session md (state.need.toList.take chatPredecessors) state state'
      (takenPredecessors session md fetch state) := by
  unfold fetchPredecessors at h
  unfold takenPredecessors
  dsimp only at h ⊢
  split at h
  · rename_i hnone
    cases h
    rw [if_pos hnone]
    exact SecondPass.nil _
  · rename_i hsome
    rw [if_neg hsome]
    obtain ⟨page, hpage, hgrouped⟩ := bind_eq_ok.mp h
    obtain ⟨_, hfold⟩ := ite_error_eq_ok.mp hgrouped
    rw [hpage]
    exact acceptPredecessors_eq_ok hfold

end

/-! ## Anchors and the ledger -/

theorem anchor_eq_ok {digest : Digest} {a : ChatAnchor} (h : anchor digest m = .ok a) :
    a.sequence = m.sequence ∧ a.id = m.metadata.id := by
  obtain ⟨bytes, _, rfl⟩ := map_eq_ok.mp h
  exact ⟨rfl, rfl⟩

variable {ledger : ChatLedger} {scope : ChatScope}

theorem checkAllObserved_eq_ok {before observed : List ChatAnchor}
    (h : ledger.checkAllObserved scope before observed = .ok ()) :
    ∀ a ∈ observed, ∀ old, ledger.anchorWhere scope (fun anchor => anchor.sequence = a.sequence) =
      some old → old = a := by
  induction observed generalizing before with
  | nil => exact fun a ha => (List.not_mem_nil ha).elim
  | cons first observed ih =>
    obtain ⟨_, hfirst, hrest⟩ := bind_eq_ok.mp h
    intro a ha old hold
    rcases List.mem_cons.mp ha with rfl | ha
    · unfold ChatLedger.checkObserved at hfirst
      obtain ⟨_, hstored⟩ := ite_error_eq_ok.mp hfirst
      obtain ⟨found, hfound, hcompare⟩ := bind_eq_ok.mp hstored
      obtain ⟨value, hvalue, hsame⟩ := map_eq_ok.mp hfound
      rw [ChatInbox.sqliteInteger_eq_ok hvalue, hold] at hsame
      obtain ⟨hagree, _⟩ := ite_error_eq_ok.mp hcompare
      rw [← hsame] at hagree
      simp only [Option.any_some, Bool.or_eq_true, decide_eq_true_eq, not_or, not_not] at hagree
      exact hagree.1
    · exact ih hrest a ha old hold

/-- Nothing that was observed differs from what the ledger has. -/
theorem verifyPage_eq_ok {digest : Digest} {session : ChatSession} {md : RtChannelMetadata}
    {history : ChatHistory} (hjudge : judgePage digest session md fetch ledger rows = .ok page)
    (h : verifyPage digest session md fetch ledger rows = .ok (history, ledger')) :
    history = page.history ∧
      ledger.chatAcceptPage page.history.scope page.observed page.anchors = .ok ledger' := by
  obtain ⟨page', hpage', haccept⟩ := bind_eq_ok.mp h
  rw [hjudge] at hpage'
  cases hpage'
  obtain ⟨accepted, haccepted, hdone⟩ := bind_eq_ok.mp haccept
  cases hdone
  exact ⟨rfl, mapError_eq_ok.mp haccepted⟩

theorem chatAcceptPage_agrees {observed anchors : List ChatAnchor}
    (h : ledger.chatAcceptPage scope observed anchors = .ok ledger') {a : ChatAnchor}
    (ha : a ∈ observed) {id : RtMessageId} (hid : storedId ledger scope a.sequence = some id) :
    id = a.id := by
  obtain ⟨_, hobserved, _⟩ := bind_eq_ok.mp h
  obtain ⟨old, hold, rfl⟩ := Option.map_eq_some_iff.mp hid
  rw [checkAllObserved_eq_ok hobserved a ha old hold]

/-! ## The page with its verdicts -/

variable {first : PredecessorState}

section

variable {digest : Digest} {session : ChatSession} {md : RtChannelMetadata}
  {fetch : RtThreadQuery → Except Error RtThreadPage} {ledger : ChatLedger} {rows : List RtMessage}

theorem openBox_not_contradiction {sender : EntityId} {box : RtMessageBox}
    (h : session.openBox md m sender box = .ok content) : content ≠ predecessorContradiction := by
  unfold ChatSession.openBox at h
  split at h
  · cases h
    decide
  · cases h
  · split at h
    · cases h
      decide
    · split at h
      · cases h
        intro hsame
        cases hsame
      · cases h
        decide

/-- Opening a message never gives the verdict of a contradiction. -/
theorem openMessage_not_contradiction (h : session.openMessage md m = .ok content) :
    content ≠ predecessorContradiction := by
  obtain ⟨_, hsender⟩ := ite_error_eq_ok.mp h
  obtain ⟨sender, _, hauthored⟩ := bind_eq_ok.mp hsender
  rcases ite_eq_ok hauthored with ⟨_, hdone⟩ | ⟨_, hauthored⟩
  · cases hdone
    decide
  · rcases ite_eq_ok hauthored with ⟨_, hdone⟩ | ⟨_, hauthored⟩
    · cases hdone
      decide
    · rcases ite_eq_ok hauthored with ⟨_, hdone⟩ | ⟨_, hauthored⟩
      · cases hdone
        intro hsame
        cases hsame
      · rcases ite_eq_ok hauthored with ⟨_, hdone⟩ | ⟨_, hauthored⟩
        · cases hdone
          decide
        · split at hauthored
          · cases hauthored
            decide
          · rcases ite_eq_ok hauthored with ⟨_, hdone⟩ | ⟨_, hbox⟩
            · cases hdone
              decide
            · exact openBox_not_contradiction hbox

/-- The rows of the page, opened, and what the passes made of them. -/
structure PageRead (digest : Digest) (session : ChatSession) (md : RtChannelMetadata)
    (ledger : ChatLedger) (rows : List RtMessage) (taken : List RtMessage)
    (messages : List ChatMessage) (page : PageJudged) : Prop where
  opened : List.Forall₂ (fun m row => row.message = m ∧
    session.openMessage md m = .ok row.content) rows messages
  distinct : rows.Pairwise fun a b => a.metadata.id ≠ b.metadata.id ∧ a.sequence ≠ b.sequence
  grounds : ∀ row ∈ messages, contradicts ledger (session.scope md.id) messages row = true →
    storedId ledger (session.scope md.id) row.message.metadata.previousSequence =
        mappedId ledger (session.scope md.id) messages row.message.metadata.previousSequence ∨
      ∃ other ∈ messages, other.message.sequence = row.message.metadata.previousSequence ∧
        other.content.isText = true ∧
        contradicts ledger (session.scope md.id) messages other = false
  scope : page.history.scope = session.scope md.id
  verdicts : page.history.messages = messages.map fun row =>
    secondVerdict taken (firstVerdict ledger (session.scope md.id) messages row)
  observed : ∀ m ∈ rows, ∃ a ∈ page.observed, anchor digest m = .ok a
  anchors : ∀ a, a ∈ page.anchors ↔
    (∃ row ∈ page.history.messages, row.content.isText = true ∧ anchor digest row.message = .ok a) ∨
      ∃ m ∈ taken, OpensText session md m ∧ anchor digest m = .ok a
  fetched : ∀ m ∈ taken, pageId messages m.sequence = none ∧ ∃ a, anchor digest m = .ok a
  fetchedDistinct : taken.Pairwise fun a b => a.sequence ≠ b.sequence
  judges : ∀ row ∈ messages, contradicts ledger (session.scope md.id) messages row = false →
    (taken.any fun m => demotes m row) = true →
    ∃ m ∈ taken, demotes m row = true ∧ OpensText session md m

theorem judgePage_eq_ok (hopen : openPage digest session md ledger rows = .ok first)
    (hjudge : judgePage digest session md fetch ledger rows = .ok page) :
    ∃ messages, PageRead digest session md ledger rows (takenPredecessors session md fetch first)
      messages page := by
  obtain ⟨first', hfirst', hfetch⟩ := bind_eq_ok.mp hjudge
  rw [hopen] at hfirst'
  cases hfirst'
  obtain ⟨state, hstate, hanchors⟩ := bind_eq_ok.mp hfetch
  obtain ⟨texts, htexts, hdone⟩ := bind_eq_ok.mp hanchors
  cases hdone
  have hsecond := fetchPredecessors_eq_ok hstate
  generalize takenPredecessors session md fetch first = taken at *
  obtain ⟨bytes, _, hlimits⟩ := bind_eq_ok.mp hopen
  obtain ⟨_, hrows⟩ := ite_error_eq_ok.mp hlimits
  obtain ⟨opened, hopened, hpass⟩ := bind_eq_ok.mp hrows
  obtain ⟨⟨checked, need⟩, hchecked, hfirst⟩ := bind_eq_ok.mp hpass
  cases hfirst
  obtain ⟨hforall, hdistinct, _⟩ := openRows_eq_ok hopened
  have hmessages : List.Forall₂ (fun m row => row.message = m ∧
      session.openMessage md m = .ok row.content) rows (opened.map (·.1)) := by
    rw [List.forall₂_map_right_iff]
    exact hforall.imp fun m row hrow => ⟨hrow.message, hrow.content⟩
  obtain ⟨rfl, hneed, hgrounds⟩ := firstPass_eq_ok (fun row hrow htext => by
    obtain ⟨m, _, rfl, hcontent⟩ := exists_of_mem_forall₂ hmessages hrow
    exact (openMessage_text hcontent htext).2) hchecked
  generalize opened.map (·.1) = messages at *
  refine ⟨messages, hmessages, hdistinct, hgrounds, rfl, ?_, fun m hm => ?_, fun a => ?_,
    fun m hm => ?_, hsecond.distinct, fun row hrow hno hany => ?_⟩
  · show state.messages = _
    rw [hsecond.messages, List.map_map]
    rfl
  · obtain ⟨row, hrow, hopened⟩ := exists_of_mem_forall₂ hforall.flip hm
    exact ⟨row.2, hsecond.observed.1 (List.mem_map.mpr ⟨row, hrow, rfl⟩), hopened.anchor⟩
  · have hpairs := mapM_eq_ok_iff.mp htexts
    rw [List.mem_append]
    refine or_congr ⟨fun ha => ?_, fun ha => ?_⟩ ⟨fun ha => ?_, fun ha => ?_⟩
    · obtain ⟨row, hrow, heq⟩ := exists_of_mem_forall₂ hpairs ha
      obtain ⟨hmem, htext⟩ := List.mem_filter.mp hrow
      exact ⟨row, hmem, htext, heq⟩
    · obtain ⟨row, hmem, htext, heq⟩ := ha
      obtain ⟨found, hfound, hsame⟩ :=
        exists_of_mem_forall₂ hpairs.flip (List.mem_filter.mpr ⟨hmem, htext⟩)
      rw [heq] at hsame
      cases hsame
      exact hfound
    · obtain ⟨m, hm, hanchor, htext⟩ := (hsecond.anchors a ha).resolve_left List.not_mem_nil
      exact ⟨m, hm, htext, hanchor⟩
    · obtain ⟨m, hm, htext, hanchor⟩ := ha
      obtain ⟨found, hfound, hrecorded⟩ := hsecond.recorded m hm htext
      rw [hanchor] at hfound
      cases hfound
      exact hrecorded
  · have hrequested := List.mem_of_mem_take (hsecond.requested m hm).1
    exact ⟨hneed m.sequence (Std.ExtTreeSet.mem_toList.mp hrequested), hsecond.hashed m hm⟩
  · refine hsecond.judges row (List.mem_map.mpr ⟨row, hrow, ?_⟩) hany
    rw [firstVerdict, hno]
    rfl

/-! ## What is known of the rows of a page -/

section

variable (h : PageRead digest session md ledger rows taken messages page)
include h

theorem PageRead.row_of_mem (hm : m ∈ rows) : ∃ row ∈ messages, row.message = m ∧
      session.openMessage md m = .ok row.content :=
  exists_of_mem_forall₂ h.opened.flip hm

theorem PageRead.mem_of_row (hrow : row ∈ messages) : row.message ∈ rows ∧
      session.openMessage md row.message = .ok row.content := by
  obtain ⟨m, hm, rfl, hcontent⟩ := exists_of_mem_forall₂ h.opened hrow
  exact ⟨hm, hcontent⟩

theorem PageRead.message_eq
    {a b : RtMessage} (ha : a ∈ rows) (hb : b ∈ rows) (hsequence : a.sequence = b.sequence) :
    a = b := by
  by_contra hne
  have hsymm : Std.Symm fun a b : RtMessage => a.metadata.id ≠ b.metadata.id ∧
      a.sequence ≠ b.sequence := ⟨fun _ _ hab => ⟨hab.1.symm, hab.2.symm⟩⟩
  exact (h.distinct.forall ha hb hne).2 hsequence

theorem PageRead.pageId_of_mem
    (hm : m ∈ rows) : pageId messages m.sequence = some m.metadata.id := by
  obtain ⟨row, hrow, rfl, _⟩ := h.row_of_mem hm
  unfold pageId
  cases hfound : messages.find? fun other => other.message.sequence = row.message.sequence with
  | none => exact absurd (List.find?_eq_none.mp hfound row hrow) (by simp)
  | some other =>
    have hsequence : other.message.sequence = row.message.sequence := by
      simpa using List.find?_some hfound
    have hother := (h.mem_of_row (List.mem_of_find?_eq_some hfound)).1
    rw [Option.map_some, h.message_eq hother hm hsequence]

/-- A row of the result that is text is a row that neither pass condemns. -/
theorem PageRead.text_row (hrow : row ∈ page.history.messages) (htext : row.content.isText = true) :
    row ∈ messages ∧ contradicts ledger (session.scope md.id) messages row = false ∧
      ∀ m ∈ taken, demotes m row = false := by
  rw [h.verdicts] at hrow
  obtain ⟨before, hbefore, rfl⟩ := List.mem_map.mp hrow
  unfold secondVerdict at htext ⊢
  split at htext
  · cases htext
  · rename_i hnone
    rw [if_neg hnone]
    unfold firstVerdict at htext hnone ⊢
    split at htext
    · cases htext
    · rename_i hno
      rw [if_neg hno] at hnone ⊢
      refine ⟨hbefore, by simpa using hno, fun m hm => ?_⟩
      simp only [List.any_eq_true, not_exists, not_and, Bool.not_eq_true] at hnone
      exact hnone m hm

theorem PageRead.text_row_of
    (hrow : row ∈ messages) (hno : contradicts ledger (session.scope md.id) messages row = false)
    (hkept : ∀ m ∈ taken, demotes m row = false) : row ∈ page.history.messages := by
  rw [h.verdicts]
  refine List.mem_map.mpr ⟨row, hrow, ?_⟩
  have hnone : (taken.any fun m => demotes m row) = false := by
    rw [List.any_eq_false]
    intro m hm
    rw [hkept m hm]
    exact Bool.false_ne_true
  simp [firstVerdict, hno, secondVerdict, hnone]

end

end

/-! ## A channel for examples -/

namespace HistorySample

open LinkSample (host uid team isTeam_team)

def author : RtPartyId := ⟨uid, .inl rfl⟩

def key : RoleAndGeneration := ⟨.owner, 1⟩

def md : RtChannelMetadata :=
  ⟨.replicate 16 5, ⟨team, isTeam_team⟩, .chat, 1, ⟨key, ⟨.replicate 16 0, []⟩⟩, none,
    ⟨.owner, .owner⟩, none, 0, 0, 1, .bottom, false⟩

def digest : Digest := fun _ => .replicate 32 0

/-- A session that opens every box as the empty text. -/
def session : ChatSession :=
  ⟨host, uid, team, some [⟨.owner, 1, []⟩], chatHistoryBytes,
    fun _ => some fun _ _ => some []⟩

def message (sequence : UInt64) (tag : UInt8) (previous : UInt64) (previousTag : UInt8) :
    RtMessage :=
  ⟨⟨.replicate 16 tag, .replicate 16 previousTag, previous, 1, .basic, none⟩,
    .encrypted ⟨[], key⟩, sequence, some author, 1⟩

/-- A server that answers with the given predecessors. -/
def answer (messages : List RtMessage) (_ : RtThreadQuery) : Except Error RtThreadPage :=
  .ok ⟨[], messages⟩

theorem exists_of_isOk {α : Type} {result : Except Error α} (h : result.isOk = true) :
    ∃ value, result = .ok value := by
  cases result with
  | error error => cases h
  | ok value => exact ⟨value, rfl⟩

/-- The stages of a page that is accepted. -/
theorem verified_stages (ledger : ChatLedger) (fetched rows : List RtMessage)
    (h : (verifyPage digest session md (answer fetched) ledger rows).isOk = true) :
    ∃ first page history ledger', openPage digest session md ledger rows = .ok first ∧
      judgePage digest session md (answer fetched) ledger rows = .ok page ∧
      verifyPage digest session md (answer fetched) ledger rows = .ok (history, ledger') := by
  obtain ⟨⟨history, ledger'⟩, hverify⟩ := exists_of_isOk h
  obtain ⟨page, hjudge, _⟩ := bind_eq_ok.mp hverify
  obtain ⟨first, hopen, _⟩ := bind_eq_ok.mp hjudge
  exact ⟨first, page, history, ledger', hopen, hjudge, hverify⟩

theorem mem_taken (h : m ∈ takenPredecessors session md (answer fetched) first) : m ∈ fetched := by
  unfold takenPredecessors at h
  dsimp only at h
  split at h
  · exact (List.not_mem_nil h).elim
  · exact takeFitting_subset _ _ _ h

end HistorySample

/-! ## Incremental reads -/

section

variable {digest : Digest} {session : ChatSession} {md : RtChannelMetadata} {ledger : ChatLedger}
  {rows : List RtMessage} {answers : ChatAnswers} {channel : RtChannelId}

/-- The passes change what is shown of the rows, not the rows, and no two rows have one number. -/
theorem verifyPage_messages {fetch : RtThreadQuery → Except Error RtThreadPage}
    {history : ChatHistory}
    (h : verifyPage digest session md fetch ledger rows = .ok (history, ledger')) :
    history.messages.map (·.message) = rows ∧ (rows.map (·.sequence.toNat)).Nodup := by
  obtain ⟨page, hjudge, -⟩ := bind_eq_ok.mp h
  obtain ⟨first, hopen, -⟩ := bind_eq_ok.mp hjudge
  obtain ⟨messages, hread⟩ := judgePage_eq_ok hopen hjudge
  refine ⟨?_, List.pairwise_map.mpr (hread.distinct.imp fun hne heq => ?_)⟩
  · have hkept (row : ChatMessage) : (secondVerdict (takenPredecessors session md fetch first)
        (firstVerdict ledger (session.scope md.id) messages row)).message = row.message := by
      unfold secondVerdict firstVerdict
      split <;> split <;> rfl
    have hopened := List.forall₂_map_right_iff.mpr (hread.opened.imp fun _ _ hrow => hrow.1.symm)
    rw [(verifyPage_eq_ok hjudge h).1, hread.verdicts, List.map_map]
    refine (List.map_congr_left fun row _ => hkept row).trans ?_
    rw [List.forall₂_eq_eq_eq] at hopened
    exact hopened.symm
  · exact hne.2 (UInt64.toNat_inj.mp heq)

theorem checkRange_within {start stop : UInt64} {last : Option UInt64}
    (h : checkRange start stop last rows = .ok ()) :
    ∀ m ∈ rows, ¬ m.sequence < min start stop ∧ ¬ max start stop < m.sequence := by
  induction rows generalizing last with
  | nil => exact fun m hm => (List.not_mem_nil hm).elim
  | cons m rows ih =>
    obtain ⟨hwithin, hrest⟩ := ite_error_eq_ok.mp h
    rw [not_or, not_or] at hwithin
    exact List.forall_mem_cons.mpr ⟨⟨hwithin.1, hwithin.2.1⟩, ih hrest⟩

theorem range_eq_ok {start stop : UInt64} (h : range answers channel start stop = .ok rows) :
    checkRange start stop none rows = .ok () := by
  obtain ⟨-, h⟩ := ite_error_eq_ok.mp h
  obtain ⟨page, -, h⟩ := bind_eq_ok.mp h
  split at h
  · obtain ⟨-, h⟩ := ite_error_eq_ok.mp h
    obtain ⟨_, hchecked, h⟩ := bind_eq_ok.mp h
    cases h
    exact hchecked
  · cases h

/-- Rows of different numbers after the cursor that no gap was found in are one for each number up
    to the head: the range is not cut by the limit, and it has room for no more. -/
theorem rowsAfter_complete {head after limit : UInt64} {gap : Bool} (hlimit : 1 ≤ limit.toNat)
    (h : rowsAfter answers channel head after limit = .ok (rows, gap))
    (hdistinct : (rows.map (·.sequence.toNat)).Nodup) (hgap : gap = false) (hafter : after < head) :
    (rows.map (·.sequence.toNat)).Perm
      (List.range' (after.toNat + 1) (head.toNat - after.toNat)) := by
  unfold rowsAfter at h
  rw [if_pos hafter] at h
  obtain ⟨rows', hrange, heq⟩ := map_eq_ok.mp h
  cases heq
  simp only [Bool.or_eq_false_iff, decide_eq_false_iff_not, not_not] at hgap
  rw [UInt64.lt_iff_toNat_lt] at hafter
  have hstart : (UInt64.ofNat (max (after.toNat + 1) (head.toNat - (limit.toNat - 1)))).toNat =
      after.toNat + 1 := by
    have hhead := head.toNat_lt
    rw [Nat.max_eq_left (by omega), toNat_ofNat64 (by omega)]
  generalize UInt64.ofNat (max (after.toNat + 1) (head.toNat - (limit.toNat - 1))) = start at *
  refine (hdistinct.subperm fun sequence hmem => ?_).perm_of_length_le ?_
  · obtain ⟨m, hm, rfl⟩ := List.mem_map.mp hmem
    obtain ⟨hlow, hhigh⟩ := checkRange_within (range_eq_ok hrange) m hm
    rw [List.mem_range'_1]
    have hmin : (min head start).toNat = min head.toNat start.toNat :=
      (apply_ite UInt64.toNat (head ≤ start) head start).trans Nat.min_def.symm
    have hmax : (max head start).toNat = max head.toNat start.toNat :=
      (apply_ite UInt64.toNat (head ≤ start) start head).trans Nat.max_def.symm
    rw [UInt64.lt_iff_toNat_lt] at hlow hhigh
    omega
  · rw [List.length_range', List.length_map]
    omega

/-- Incremental reads are complete when they say so. For every answer of the server, a read without
    a gap has exactly one message for each number from the cursor to the head; and the gap is
    reported when the head is behind the cursor, or when one of these numbers is missing. -/
theorem readAfter_complete {after limit : UInt64} {history : ChatHistory} {gap : Bool}
    (h : readAfter digest session answers channel after limit ledger =
      .ok ((history, gap), ledger')) :
    ∃ md, answers.channel = .ok md ∧
      let head := (md.lastMessage.map (·.sequence)).getD 0
      let sequences := history.messages.map (·.message.sequence.toNat)
      (gap = false → after < head →
        sequences.Perm (List.range' (after.toNat + 1) (head.toNat - after.toNat))) ∧
      (head < after → gap = true) ∧
      ∀ sequence, after.toNat < sequence → sequence ≤ head.toNat → sequence ∉ sequences →
        gap = true := by
  obtain ⟨hlimits, h⟩ := ite_error_eq_ok.mp h
  obtain ⟨md, hmd, h⟩ := bind_eq_ok.mp h
  obtain ⟨⟨rows, gap⟩, hrows, h⟩ := bind_eq_ok.mp h
  obtain ⟨⟨history, ledger'⟩, hverify, h⟩ := bind_eq_ok.mp h
  cases h
  obtain ⟨rfl, hdistinct⟩ := verifyPage_messages hverify
  have hcomplete := rowsAfter_complete (by omega) hrows hdistinct
  rw [List.map_map] at hcomplete
  refine ⟨md, hmd, hcomplete, fun hback => ?_, fun sequence hlow hhigh hmissing => ?_⟩
  · unfold rowsAfter at hrows
    rw [if_neg (UInt64.not_lt.mpr (UInt64.le_of_lt hback)), decide_eq_true hback] at hrows
    exact (Prod.mk.inj (Except.ok.inj hrows)).2.symm
  · by_contra hgap
    have hafter := UInt64.lt_iff_toNat_lt.mpr (hlow.trans_le hhigh)
    refine hmissing ((hcomplete (Bool.not_eq_true _ ▸ hgap) hafter).mem_iff.mpr ?_)
    rw [List.mem_range'_1]
    omega

end

namespace HistorySample

/-- Two messages after the first one, both of which the server has. -/
theorem readAfter_complete_two :
    let answers : ChatAnswers :=
      ⟨.ok { md with lastMessage := some ⟨3, .basic, 1, some author, none⟩ }, fun _ => .ok [],
        fun _ => .ok ⟨[[message 3 3 2 2, message 2 2 1 1]], []⟩, answer [message 1 1 0 0]⟩
    ∃ history ledger', readAfter digest session answers md.id 1 10 [] =
        .ok ((history, false), ledger') ∧
      (history.messages.map (·.message.sequence.toNat)).Perm [2, 3] := by
  intro answers
  obtain ⟨⟨⟨history, gap⟩, ledger'⟩, hread, hgap⟩ := exists_of_toOption_any
    (show (readAfter digest session answers md.id 1 10 []).toOption.any (fun r => !r.1.2) = true by
      decide +kernel)
  obtain ⟨_, hmd, hcomplete, -⟩ := readAfter_complete hread
  cases hmd
  obtain rfl : gap = false := by simpa using hgap
  exact ⟨history, ledger', hread, hcomplete rfl (by decide)⟩

end HistorySample

section

variable {digest : Digest} {session : ChatSession} {md : RtChannelMetadata}
  {fetch : RtThreadQuery → Except Error RtThreadPage} {ledger : ChatLedger} {rows : List RtMessage}

/-! ## What verdicts rest on -/

/-- Every row that is condemned points to a message with another identifier, which was in the
    ledger or becomes an anchor. -/
def RestsOnEvidence (ledger : ChatLedger) (page : PageJudged) : Prop :=
  ∀ row ∈ page.history.messages, row.content = predecessorContradiction →
    ∃ id, id ≠ row.message.metadata.previousId ∧
      (storedId ledger page.history.scope row.message.metadata.previousSequence = some id ∨
        ∃ a ∈ page.anchors, a.sequence = row.message.metadata.previousSequence ∧ a.id = id)

/-- No message of the page that contradicts another pointer of the page, and is not in the ledger,
    is itself contradicted by a predecessor that was fetched. -/
def NoDemotedJudge (session : ChatSession) (md : RtChannelMetadata) (ledger : ChatLedger)
    (rows taken : List RtMessage) : Prop :=
  ∀ judge ∈ rows, ∀ m ∈ rows, OpensText session md judge → OpensText session md m →
    m.metadata.previousSequence = judge.sequence → m.metadata.previousId ≠ judge.metadata.id →
    storedId ledger (session.scope md.id) judge.sequence ≠ some judge.metadata.id →
    ∀ fetched ∈ taken, fetched.sequence = judge.metadata.previousSequence →
      fetched.metadata.id = judge.metadata.previousId

theorem contradicts_eq_true (h : contradicts ledger scope messages row = true) :
    row.content.isText = true ∧
      ∃ id, mappedId ledger scope messages row.message.metadata.previousSequence = some id ∧
        id ≠ row.message.metadata.previousId := by
  unfold contradicts at h
  simp only [Bool.and_eq_true, decide_eq_true_eq, Option.any_eq_true] at h
  obtain ⟨⟨htext, _⟩, id, hid, hne⟩ := h
  exact ⟨htext, id, hid, hne⟩

/-- If a judge is demoted, the row that it condemned has no evidence. -/
theorem PageRead.noDemotedJudge (hread : PageRead digest session md ledger rows taken messages page)
    (haccept : ledger.chatAcceptPage (session.scope md.id) page.observed page.anchors =
      .ok ledger') (hevidence : RestsOnEvidence ledger page) :
    NoDemotedJudge session md ledger rows taken := by
  intro judge hjudgeMem m hm ⟨judgeContent, hjudgeOpen, hjudgeText⟩
    ⟨content, hopened, htext⟩ hpointer hdiffer hnew fetched hfetched hprevious
  obtain ⟨row, hrow, rfl, hrowOpen⟩ := hread.row_of_mem hm
  rw [hopened] at hrowOpen
  cases hrowOpen
  have hpage := hread.pageId_of_mem hjudgeMem
  have hyes : contradicts ledger (session.scope md.id) messages row = true := by
    have hzero := (openMessage_text hjudgeOpen hjudgeText).1
    simp [contradicts, htext, hpointer, mappedId, hpage, hzero, hdiffer.symm]
  -- the row is condemned, so there is evidence for another identifier
  have hcondemned : condemn row ∈ page.history.messages := by
    rw [hread.verdicts]
    refine List.mem_map.mpr ⟨row, hrow, ?_⟩
    have hnone : (taken.any fun m => demotes m (condemn row)) = false := by
      simp [condemn_not_demoted]
    simp [firstVerdict, hyes, secondVerdict, hnone]
  obtain ⟨id, hid, hground⟩ := hevidence (condemn row) hcondemned rfl
  rw [hread.scope] at hground
  have hpointer' : (condemn row).message.metadata.previousSequence = judge.sequence := hpointer
  rw [hpointer'] at hground
  rcases hground with hstored | ⟨a, ha, hsequence, rfl⟩
  · -- the ledger agrees with what was observed of the judge
    obtain ⟨observed, hobserved, hanchor⟩ := hread.observed judge hjudgeMem
    obtain ⟨hobservedSequence, hobservedId⟩ := anchor_eq_ok hanchor
    rw [← hobservedSequence] at hstored
    have hsame := chatAcceptPage_agrees haccept hobserved hstored
    rw [hobservedSequence, hsame, hobservedId] at hstored
    exact absurd hstored hnew
  · rcases (hread.anchors a).mp ha with ⟨other, hother, hotherText, hanchor⟩ |
      ⟨other, hother, _, hanchor⟩
    · obtain ⟨hotherMem, _, hkept⟩ := hread.text_row hother hotherText
      have hotherRow := (hread.mem_of_row hotherMem).1
      have hsame : other.message = judge := by
        refine hread.message_eq hotherRow hjudgeMem ?_
        rw [← (anchor_eq_ok hanchor).1, hsequence]
      have hno := hkept fetched hfetched
      simp only [demotes, hotherText, hsame, hprevious, Bool.true_and, decide_true,
        decide_eq_false_iff_not, not_not] at hno
      exact hno.symm
    · have hnone := (hread.fetched other hother).1
      rw [← (anchor_eq_ok hanchor).1, hsequence, hpage] at hnone
      cases hnone

/-- A judge that is not demoted is in the ledger or becomes an anchor. -/
theorem PageRead.restsOnEvidence
    (hread : PageRead digest session md ledger rows taken messages page)
    (hjudges : NoDemotedJudge session md ledger rows taken) : RestsOnEvidence ledger page := by
  intro row hrow hcondemned
  rw [hread.verdicts] at hrow
  obtain ⟨before, hbefore, rfl⟩ := List.mem_map.mp hrow
  obtain ⟨hbeforeMem, hbeforeOpen⟩ := hread.mem_of_row hbefore
  rw [hread.scope]
  by_cases hyes : contradicts ledger (session.scope md.id) messages before = true
  · have hmessage : (secondVerdict taken (firstVerdict ledger (session.scope md.id) messages
        before)).message = before.message := by
      unfold secondVerdict firstVerdict
      rw [if_pos hyes]
      split <;> rfl
    rw [hmessage]
    obtain ⟨htext, id, hid, hdiffer⟩ := contradicts_eq_true hyes
    rcases hread.grounds before hbefore hyes with hstored | ⟨other, hother, hsequence, hotherText,
      hno⟩
    · exact ⟨id, hdiffer, .inl (hstored.trans hid)⟩
    · obtain ⟨hotherMem, hotherOpen⟩ := hread.mem_of_row hother
      have hpage := hread.pageId_of_mem hotherMem
      have hidOther : id = other.message.metadata.id := by
        rw [← hsequence, mappedId, hpage] at hid
        exact (Option.some.inj hid).symm
      refine ⟨id, hdiffer, ?_⟩
      by_cases hnew : storedId ledger (session.scope md.id) other.message.sequence =
          some other.message.metadata.id
      · left
        rw [← hsequence, hnew, hidOther]
      · -- the judge is not demoted, so it becomes an anchor
        right
        have hkept (m : RtMessage) (hm : m ∈ taken) : demotes m other = false := by
          have hagree := hjudges other.message hotherMem before.message hbeforeMem
            ⟨_, hotherOpen, hotherText⟩ ⟨_, hbeforeOpen, htext⟩ hsequence.symm
            (by rw [← hidOther]; exact hdiffer.symm) hnew m hm
          by_contra hdemotes
          simp only [demotes, hotherText, Bool.true_and, Bool.not_eq_false, Bool.and_eq_true,
            decide_eq_true_eq] at hdemotes
          exact hdemotes.2 (hagree hdemotes.1.symm).symm
        obtain ⟨a, _, hanchor⟩ := hread.observed other.message hotherMem
        obtain ⟨hasequence, haid⟩ := anchor_eq_ok hanchor
        refine ⟨a, (hread.anchors a).mpr (.inl ⟨other, hread.text_row_of hother hno hkept,
          hotherText, hanchor⟩), hasequence.trans hsequence, haid.trans hidOther.symm⟩
  · have hno : contradicts ledger (session.scope md.id) messages before = false := by
      simpa using hyes
    have hfirst : firstVerdict ledger (session.scope md.id) messages before = before := by
      simp [firstVerdict, hno]
    rw [hfirst] at hcondemned ⊢
    unfold secondVerdict at hcondemned ⊢
    split at hcondemned
    · rename_i hany
      rw [if_pos hany]
      obtain ⟨m, hm, hdemotes, htext⟩ := hread.judges before hbefore hno hany
      simp only [demotes, Bool.and_eq_true, decide_eq_true_eq] at hdemotes
      obtain ⟨a, hanchor⟩ := (hread.fetched m hm).2
      have ha : a ∈ page.anchors := (hread.anchors a).mpr (.inr ⟨m, hm, htext, hanchor⟩)
      obtain ⟨hasequence, haid⟩ := anchor_eq_ok hanchor
      exact ⟨m.metadata.id, hdemotes.2.symm, .inr ⟨a, ha, hasequence.trans hdemotes.1.2.symm,
        haid⟩⟩
    · exact absurd hcondemned (openMessage_not_contradiction hbeforeOpen)

/-- The verdicts of an accepted page rest on recorded evidence exactly when no judge of the page is
    demoted by a fetched predecessor. -/
theorem evidence_recorded_iff {first : PredecessorState} {page : PageJudged} {history : ChatHistory}
    {ledger' : ChatLedger} (hopen : openPage digest session md ledger rows = .ok first)
    (hjudge : judgePage digest session md fetch ledger rows = .ok page)
    (hverify : verifyPage digest session md fetch ledger rows = .ok (history, ledger')) :
    RestsOnEvidence ledger page ↔
      NoDemotedJudge session md ledger rows (takenPredecessors session md fetch first) := by
  obtain ⟨messages, hread⟩ := judgePage_eq_ok hopen hjudge
  obtain ⟨_, haccept⟩ := verifyPage_eq_ok hjudge hverify
  rw [hread.scope] at haccept
  exact ⟨hread.noDemotedJudge haccept, hread.restsOnEvidence⟩

/-- What becomes an anchor is in the ledger afterwards, unless as many anchors as are retained are
    above it. -/
theorem verifyPage_anchored {page : PageJudged} {history : ChatHistory} {ledger' : ChatLedger}
    (hledger : OneToOne (ledger.retained page.history.scope))
    (hjudge : judgePage digest session md fetch ledger rows = .ok page)
    (hverify : verifyPage digest session md fetch ledger rows = .ok (history, ledger')) :
    ∀ a ∈ page.anchors, a ∈ ledger'.retained page.history.scope ∨ chatRetainedAnchors ≤
      {b ∈ (ledger.retained page.history.scope).toFinset ∪ page.anchors.toFinset |
        a.sequence < b.sequence}.card := by
  intro a ha
  obtain ⟨_, haccept⟩ := verifyPage_eq_ok hjudge hverify
  have haccepted := ChatLedger.chatAcceptPage_retained hledger haccept
  refine or_iff_not_imp_right.mpr fun hfew => (haccepted.highest a).mpr ⟨?_, not_le.mp hfew⟩
  exact Finset.mem_union_right _ (List.mem_toFinset.mpr ha)

end

namespace HistorySample

/-- The second message names the first with another identifier. -/
def judgedRows : List RtMessage := [message 1 1 0 0, message 2 2 1 9]

/-- The second message is condemned by the first, which is recorded. -/
theorem judgedRows_evidence : ∃ page,
    judgePage digest session md (answer []) [] judgedRows = .ok page ∧
      page.history.messages.map (·.content) = [.text "", predecessorContradiction] ∧
      RestsOnEvidence [] page := by
  obtain ⟨first, page, history, ledger', hopen, hjudge, hverify⟩ :=
    verified_stages [] [] judgedRows (by decide +kernel)
  have hcontents : (judgePage digest session md (answer []) [] judgedRows).toOption.map
      (fun page => page.history.messages.map (·.content)) =
        some [.text "", predecessorContradiction] := by decide +kernel
  rw [hjudge] at hcontents
  refine ⟨page, hjudge, Option.some.inj hcontents,
    (evidence_recorded_iff hopen hjudge hverify).mpr ?_⟩
  exact fun _ _ _ _ _ _ _ _ _ fetched hfetched => (List.not_mem_nil (mem_taken hfetched)).elim

/-- The third message names the second with another identifier, and so does the second with a first
    one that has to be fetched. -/
def demotedRows : List RtMessage := [message 2 2 1 9, message 3 3 2 8]

/-- The third message is condemned by the second, which is condemned by the first: nothing that is
    recorded contradicts the third. -/
theorem demotedRows_no_evidence : ∃ page history ledger',
    judgePage digest session md (answer [message 1 1 0 0]) [] demotedRows = .ok page ∧
      verifyPage digest session md (answer [message 1 1 0 0]) [] demotedRows =
        .ok (history, ledger') ∧ ¬ RestsOnEvidence [] page := by
  obtain ⟨first, page, history, ledger', _, hjudge, hverify⟩ :=
    verified_stages [] [message 1 1 0 0] demotedRows (by decide +kernel)
  refine ⟨page, history, ledger', hjudge, hverify, fun hevidence => ?_⟩
  have hrow : (judgePage digest session md (answer [message 1 1 0 0]) [] demotedRows).toOption.map
      (fun page => page.history.messages.any fun row => row.content = predecessorContradiction ∧
        row.message.metadata.previousSequence = 2) = some true := by decide +kernel
  have hanchors : (judgePage digest session md (answer [message 1 1 0 0]) []
      demotedRows).toOption.map (fun page => page.anchors.map (·.sequence)) = some [1] := by
    decide +kernel
  rw [hjudge] at hrow hanchors
  obtain ⟨row, hmem, hmatch⟩ := List.any_eq_true.mp (Option.some.inj hrow)
  obtain ⟨hcontent, hprevious⟩ := of_decide_eq_true hmatch
  obtain ⟨id, _, hstored | ⟨a, ha, hsequence, _⟩⟩ := hevidence row hmem hcontent
  · cases hstored
  · have hin : a.sequence ∈ page.anchors.map (·.sequence) := List.mem_map.mpr ⟨a, ha, rfl⟩
    have hone : page.anchors.map (·.sequence) = [1] := Option.some.inj hanchors
    rw [hone, List.mem_singleton, hsequence, hprevious] at hin
    exact absurd hin (by decide)

end HistorySample

/-! ## What becomes an anchor -/

section

variable {digest : Digest} {session : ChatSession} {md : RtChannelMetadata}
  {fetch : RtThreadQuery → Except Error RtThreadPage} {ledger : ChatLedger} {rows : List RtMessage}

/-- The page, the fetched predecessors or the ledger have a message of this number. -/
def KnownMapping (session : ChatSession) (md : RtChannelMetadata) (ledger : ChatLedger)
    (rows taken : List RtMessage) (sequence : UInt64) (id : RtMessageId) : Prop :=
  (∃ m, (m ∈ rows ∨ m ∈ taken) ∧ m.sequence = sequence ∧ m.metadata.id = id) ∨
    storedId ledger (session.scope md.id) sequence = some id

/-- The pointer of the message contradicts no mapping that is known. -/
def PointerAgrees (session : ChatSession) (md : RtChannelMetadata) (ledger : ChatLedger)
    (rows taken : List RtMessage) (m : RtMessage) : Prop :=
  m.metadata.previousSequence ≠ 0 → ∀ id,
    KnownMapping session md ledger rows taken m.metadata.previousSequence id →
    id = m.metadata.previousId

/-- Every anchor is the anchor of a message that opens as text and whose pointer agrees. -/
def AnchorsAgree (digest : Digest) (session : ChatSession) (md : RtChannelMetadata)
    (ledger : ChatLedger) (rows taken : List RtMessage) (page : PageJudged) : Prop :=
  ∀ a ∈ page.anchors, ∃ m, (m ∈ rows ∨ m ∈ taken) ∧ anchor digest m = .ok a ∧
    OpensText session md m ∧ PointerAgrees session md ledger rows taken m

/-- A row of the page that stays text agrees with everything. -/
theorem PageRead.text_row_agrees
    (hread : PageRead digest session md ledger rows taken messages page)
    (haccept : ledger.chatAcceptPage (session.scope md.id) page.observed page.anchors =
      .ok ledger') (hrow : row ∈ page.history.messages) (htext : row.content.isText = true) :
    PointerAgrees session md ledger rows taken row.message := by
  obtain ⟨hmem, hno, hkept⟩ := hread.text_row hrow htext
  intro hpointer id hknown
  -- what the page or else the ledger says is what the first pass compared with
  have hmapped (hid : mappedId ledger (session.scope md.id) messages
      row.message.metadata.previousSequence = some id) :
      id = row.message.metadata.previousId := by
    simpa [contradicts, htext, hpointer, hid] using hno
  rcases hknown with ⟨m, hm | hm, hsequence, rfl⟩ | hstored
  · refine hmapped ?_
    rw [← hsequence, mappedId, hread.pageId_of_mem hm]
    rfl
  · have hnot := hkept m hm
    simp only [demotes, htext, hsequence, Bool.true_and, decide_true, decide_eq_false_iff_not,
      not_not] at hnot
    exact hnot.symm
  · cases hpage : pageId messages row.message.metadata.previousSequence with
    | none =>
      refine hmapped ?_
      rw [mappedId, hpage]
      exact hstored
    | some other =>
      -- a row of the page has this number, and the ledger agrees with it
      obtain ⟨found, hfound, rfl⟩ := Option.map_eq_some_iff.mp hpage
      have hsequence : found.message.sequence = row.message.metadata.previousSequence := by
        simpa using List.find?_some hfound
      obtain ⟨a, ha, hanchor⟩ :=
        hread.observed found.message (hread.mem_of_row (List.mem_of_find?_eq_some hfound)).1
      obtain ⟨hasequence, haid⟩ := anchor_eq_ok hanchor
      rw [← hsequence, ← hasequence] at hstored
      rw [chatAcceptPage_agrees haccept ha hstored, haid] at hmapped ⊢
      refine hmapped ?_
      rw [mappedId, hpage]
      rfl

/-- The anchors of an accepted page agree exactly when those of the fetched predecessors do. -/
theorem anchors_agree_iff {first : PredecessorState} {page : PageJudged} {history : ChatHistory}
    {ledger' : ChatLedger} (hopen : openPage digest session md ledger rows = .ok first)
    (hjudge : judgePage digest session md fetch ledger rows = .ok page)
    (hverify : verifyPage digest session md fetch ledger rows = .ok (history, ledger')) :
    AnchorsAgree digest session md ledger rows (takenPredecessors session md fetch first) page ↔
      ∀ m ∈ takenPredecessors session md fetch first, OpensText session md m →
        PointerAgrees session md ledger rows (takenPredecessors session md fetch first) m := by
  obtain ⟨messages, hread⟩ := judgePage_eq_ok hopen hjudge
  obtain ⟨_, haccept⟩ := verifyPage_eq_ok hjudge hverify
  rw [hread.scope] at haccept
  generalize takenPredecessors session md fetch first = taken at *
  constructor
  · intro hagree m hm htext
    obtain ⟨hnone, a, hanchor⟩ := hread.fetched m hm
    obtain ⟨other, hother, hsame, _, hpointer⟩ :=
      hagree a ((hread.anchors a).mpr (.inr ⟨m, hm, htext, hanchor⟩))
    have hsequence : other.sequence = m.sequence :=
      (anchor_eq_ok hsame).1.symm.trans (anchor_eq_ok hanchor).1
    rcases hother with hother | hother
    · rw [← hsequence, hread.pageId_of_mem hother] at hnone
      cases hnone
    · have heq : other = m := by
        by_contra hne
        have hsymm : Std.Symm fun a b : RtMessage => a.sequence ≠ b.sequence :=
          ⟨fun _ _ hab => hab.symm⟩
        exact hread.fetchedDistinct.forall hother hm hne hsequence
      rwa [← heq]
  · intro hfetched a ha
    rcases (hread.anchors a).mp ha with ⟨row, hrow, htext, hanchor⟩ | ⟨m, hm, htext, hanchor⟩
    · obtain ⟨hmem, _, _⟩ := hread.text_row hrow htext
      obtain ⟨hrows, hopened⟩ := hread.mem_of_row hmem
      exact ⟨row.message, .inl hrows, hanchor, ⟨_, hopened, htext⟩,
        hread.text_row_agrees haccept hrow htext⟩
    · exact ⟨m, .inr hm, hanchor, htext, hfetched m hm htext⟩

end

namespace HistorySample

/-- A message that names its predecessor rightly. -/
def pointingRows : List RtMessage := [message 3 3 2 2]

def firstAnchor : ChatAnchorRow := ⟨session.scope md.id, ⟨1, .replicate 16 1, .replicate 32 0⟩⟩

/-- The fetched predecessor names message one as the ledger has it. -/
theorem pointingRows_agree : ∃ first page,
    judgePage digest session md (answer [message 2 2 1 1]) [firstAnchor] pointingRows = .ok page ∧
      page.anchors.map (·.sequence) = [3, 2] ∧ AnchorsAgree digest session md [firstAnchor]
        pointingRows (takenPredecessors session md (answer [message 2 2 1 1]) first) page := by
  obtain ⟨first, page, history, ledger', hopen, hjudge, hverify⟩ :=
    verified_stages [firstAnchor] [message 2 2 1 1] pointingRows (by decide +kernel)
  have hanchors : (judgePage digest session md (answer [message 2 2 1 1]) [firstAnchor]
      pointingRows).toOption.map (fun page => page.anchors.map (·.sequence)) = some [3, 2] := by
    decide +kernel
  rw [hjudge] at hanchors
  refine ⟨first, page, hjudge, Option.some.inj hanchors,
    (anchors_agree_iff hopen hjudge hverify).mpr fun m hm _ _ id hknown => ?_⟩
  rw [List.mem_singleton.mp (mem_taken hm)] at hknown ⊢
  rcases hknown with ⟨other, hother, hsequence, -⟩ | hstored
  · -- neither the page nor what was fetched has message one
    have hother : other = message 3 3 2 2 ∨ other = message 2 2 1 1 :=
      hother.imp List.mem_singleton.mp fun hother => List.mem_singleton.mp (mem_taken hother)
    rcases hother with rfl | rfl <;> cases hsequence
  · have hone : storedId [firstAnchor] (session.scope md.id) 1 = some (.replicate 16 1) := by
      decide +kernel
    exact Option.some.inj (hstored.symm.trans hone)

/-- The fetched predecessor names message one with another identifier than the ledger has, and
    becomes an anchor. -/
theorem fetched_contradicts_ledger : ∃ first page history ledger',
    openPage digest session md [firstAnchor] pointingRows = .ok first ∧
      judgePage digest session md (answer [message 2 2 1 9]) [firstAnchor] pointingRows = .ok page ∧
      verifyPage digest session md (answer [message 2 2 1 9]) [firstAnchor] pointingRows =
        .ok (history, ledger') ∧
      ¬ AnchorsAgree digest session md [firstAnchor] pointingRows
        (takenPredecessors session md (answer [message 2 2 1 9]) first) page := by
  obtain ⟨first, page, history, ledger', hopen, hjudge, hverify⟩ :=
    verified_stages [firstAnchor] [message 2 2 1 9] pointingRows (by decide +kernel)
  refine ⟨first, page, history, ledger', hopen, hjudge, hverify, fun hagree => ?_⟩
  have hanchors : (judgePage digest session md (answer [message 2 2 1 9]) [firstAnchor]
      pointingRows).toOption.map (fun page => page.anchors.any fun a => a.sequence = 2) =
        some true := by decide +kernel
  rw [hjudge] at hanchors
  obtain ⟨a, ha, hsequence⟩ := List.any_eq_true.mp (Option.some.inj hanchors)
  obtain ⟨m, hm, hanchor, _, hpointer⟩ := hagree a ha
  have htwo : m.sequence = 2 := by
    rw [← (anchor_eq_ok hanchor).1]
    exact of_decide_eq_true hsequence
  have hmessage : m = message 2 2 1 9 := by
    rcases hm with hm | hm
    · rw [List.mem_singleton.mp hm] at htwo
      exact absurd htwo (by decide)
    · exact List.mem_singleton.mp (mem_taken hm)
  rw [hmessage] at hpointer
  have hstored : storedId [firstAnchor] (session.scope md.id) 1 = some (.replicate 16 1) := by
    decide +kernel
  exact absurd (hpointer (by decide) _ (.inr hstored)) (by decide)

end HistorySample

end Foks.Client
