/-
  How a client reads the history of a channel (`foks-client`, `realtime/history.rs`, and
  `foks-client-db`, `repositories/chat.rs`, the table `chat_anchors`).

  The client keeps an anchor of every message that it could open: its sequence number, its
  identifier and a hash of its bytes. A page of messages is opened, each pointer to a predecessor is
  compared with the page, the anchors and predecessors that are asked for, and then the page has to
  agree with the anchors. An error of channel integrity, or the verdict of a contradiction, is an
  accusation: of the server, or of the author of the message.

  The answers of the server are given by functions, one for each request of a read, so that the
  server may change between them. Keys and the opening of a box are parameters.
-/
import Foks.Client.ChatInbox
import Std.Data.ExtTreeSet

namespace Foks.Client

open Foks.Lib Foks.Proto Foks.Crypto

def messageAnchorHashDomain : UInt64 := 0x83a9257ea7382011

def chatHistoryRows : Nat := 1000

def chatHistoryBytes : Nat := 8 * 1024 * 1024

def chatPredecessors : Nat := 32

def chatRetainedAnchors : Nat := 10000

/-! ## Anchors -/

structure ChatScope where
  host : List UInt8
  uid : List UInt8
  team : List UInt8
  channel : RtChannelId
  deriving DecidableEq

structure ChatAnchor where
  sequence : UInt64
  id : RtMessageId
  digest : Hash
  deriving DecidableEq

/-- A row of `chat_anchors`. -/
structure ChatAnchorRow where
  scope : ChatScope
  anchor : ChatAnchor
  deriving DecidableEq

abbrev ChatLedger := List ChatAnchorRow

/-- `history.rs`, `anchor`. -/
def anchor (digest : Digest) (m : RtMessage) : Except Error ChatAnchor :=
  m.encoded.mapError .protocol |>.map fun bytes =>
    ⟨m.sequence, m.metadata.id, prefixedHash digest messageAnchorHashDomain bytes⟩

namespace ChatLedger

section

variable (ledger : ChatLedger) (scope : ChatScope)

def anchorWhere (p : ChatAnchor → Bool) : Option ChatAnchor :=
  (ledger.find? fun row => row.scope = scope && p row.anchor).map (·.anchor)

def chatAnchor (sequence : UInt64) : Except Error (Option ChatAnchor) :=
  (ChatInbox.sqliteInteger "chat sequence" sequence).map fun sequence =>
    ledger.anchorWhere scope fun anchor => anchor.sequence = sequence

/-- One observation, after the observations `before`. -/
def checkObserved (before : List ChatAnchor) (a : ChatAnchor) : Except Error Unit :=
  if before.any fun old => (old.sequence = a.sequence || old.id = a.id) && old ≠ a then
    .error (.chatConflict "message mapping or envelope changed")
  else do
    let bySequence ← ledger.chatAnchor scope a.sequence
    let byId := ledger.anchorWhere scope fun anchor => anchor.id = a.id
    if bySequence.any (· ≠ a) || byId.any (· ≠ a) then
      .error (.chatConflict "message mapping or envelope changed")
    else .ok ()

def checkAllObserved (ledger : ChatLedger) (scope : ChatScope) :
    List ChatAnchor → List ChatAnchor → Except Error Unit
  | _, [] => .ok ()
  | before, a :: rest => do
    ledger.checkObserved scope before a
    ledger.checkAllObserved scope (before ++ [a]) rest

/-- The `INSERT … ON CONFLICT DO NOTHING` of an anchor that was observed. -/
def insertAnchor (observed : List ChatAnchor) (ledger : ChatLedger) (a : ChatAnchor) :
    Except Error ChatLedger :=
  if observed.find? (fun other => other.sequence = a.sequence) ≠ some a then
    .error (.chatConflict "anchor was not checked")
  else do
    let sequence ← ChatInbox.sqliteInteger "chat sequence" a.sequence
    if sequence = 0 then .error .constraint
    else if ledger.any fun row => row.scope = scope &&
        (row.anchor.sequence = a.sequence || row.anchor.id = a.id) then .ok ledger
    else .ok (ledger ++ [⟨scope, a⟩])

/-- The smallest sequence number that is kept, if there are more anchors than are kept. -/
def cutoff : Option UInt64 :=
  (((ledger.filter fun row => row.scope = scope).map (·.anchor.sequence))
    |>.insertionSort fun a b => b ≤ a)[chatRetainedAnchors - 1]?

def prune : ChatLedger :=
  match ledger.cutoff scope with
  | none => ledger
  | some cutoff => ledger.filter fun row => !(row.scope = scope && row.anchor.sequence < cutoff)

/-- The transaction; one that fails leaves the table as it was. -/
def chatAcceptPage (observed anchors : List ChatAnchor) : Except Error ChatLedger := do
  ledger.checkAllObserved scope [] observed
  let ledger ← anchors.foldlM (insertAnchor scope observed) ledger
  .ok (ledger.prune scope)

end

end ChatLedger

/-! ## Opening a message -/

structure RtMessageNoncer where
  metadata : RtMessageMetadata
  sender : Option FqParty
  app : RtAppId
  team : FqParty
  channel : RtChannelId
  deriving DecidableEq

/-- `RealtimeKeys::open_basic_message`. -/
abbrev MessageOpener := RtMessageNoncer → List UInt8 → Option (List UInt8)

structure ChatPtk where
  role : Role
  generation : UInt64
  seed : List UInt8

structure ChatSession where
  host : EntityId
  uid : EntityId
  teamId : EntityId
  /-- The keys of the team, once it is authenticated. -/
  ptks : Option (List ChatPtk)
  historyByteLimit : Nat
  /-- `derive_realtime_keys` for the chat app. -/
  deriveRealtimeKeys : List UInt8 → Option MessageOpener

/-- The verdict on a message. -/
inductive ChatContent where
  | text (text : String)
  | unsupported (kind : RtMessageType)
  | unverifiable (reason : String)
  deriving DecidableEq

def ChatContent.isText : ChatContent → Bool
  | .text _ => true
  | _ => false

structure ChatMessage where
  message : RtMessage
  content : ChatContent
  deriving DecidableEq

def predecessorContradiction : ChatContent :=
  .unverifiable "predecessor pointer contradicts an anchored message"

namespace ChatSession

section

variable (session : ChatSession)

def scope (channel : RtChannelId) : ChatScope :=
  ⟨session.host.bytes, session.uid.bytes, session.teamId.bytes, channel⟩

def keys (key : RoleAndGeneration) : Except Error MessageOpener := do
  let ptks ← okOr (.chatOperationState "chat operation is not authenticated") session.ptks
  let ptk ← okOr (.chatKeyUnavailable "verified historical chat key unavailable")
    (ptks.find? fun ptk => ptk.role = key.role && ptk.generation = key.generation)
  okOr .crypto (session.deriveRealtimeKeys ptk.seed)

def noncer (channel : RtChannelId) (metadata : RtMessageMetadata) (sender : EntityId) :
    RtMessageNoncer :=
  ⟨metadata, some ⟨sender, session.host⟩, .chat, ⟨session.teamId, session.host⟩, channel⟩

variable (md : RtChannelMetadata)

/-- The text of an encrypted box. -/
def openBox (m : RtMessage) (sender : EntityId) (box : RtMessageBox) : Except Error ChatContent :=
  match session.keys box.key with
  | .error (.chatKeyUnavailable _) => .ok (.unverifiable "message key generation unavailable")
  | .error error => .error error
  | .ok opener =>
    match opener (session.noncer md.id m.metadata sender) box.ciphertext with
    | none => .ok (.unverifiable "message authentication failed")
    | some bytes =>
      match String.fromUTF8? ⟨bytes.toArray⟩ with
      | some text => .ok (.text text)
      | none => .ok (.unverifiable "Basic text is not UTF-8")

/-- What the author wrote, of a message that the server has numbered. -/
def openAuthored (m : RtMessage) (sender : RtPartyId) : Except Error ChatContent :=
  if m.metadata.id = .replicate 16 0 ∨ m.sequence ≤ m.metadata.previousSequence ∨
      ¬ (m.metadata.previousSequence = 0 ↔ m.metadata.previousId = .replicate 16 0) then
    .ok (.unverifiable "invalid message metadata")
  else if sender.entity.entityType ≠ entityUser then
    .ok (.unverifiable "unsupported message sender")
  else if m.metadata.kind ≠ .basic then .ok (.unsupported m.metadata.kind)
  else if m.metadata.furtherUserAttribution.isSome then
    .ok (.unverifiable "unsupported message attribution")
  else
    match m.wrapper with
    | .plaintext _ => .ok (.unverifiable "unencrypted chat message")
    | .encrypted box =>
      if box.key.role ≠ md.roles.read then .ok (.unverifiable "message read role mismatch")
      else session.openBox md m sender.entity box

def openMessage (m : RtMessage) : Except Error ChatContent :=
  if m.sequence = 0 ∨ 2 ^ 63 ≤ m.sequence.toNat then
    .error (.chatChannelIntegrity "invalid message sequence")
  else do
    let sender ← okOr (.chatChannelIntegrity "message sender missing") m.sender
    session.openAuthored md m sender

end

end ChatSession

/-! ## Verifying a page -/

abbrev SequenceSet := Std.ExtTreeSet UInt64 compare

structure ChatHistory where
  scope : ChatScope
  messages : List ChatMessage
  missingPredecessors : List UInt64

section

variable (digest : Digest) (session : ChatSession) (md : RtChannelMetadata)

/-- The loop over the rows of a page, after the rows `before`: the messages with their verdicts, and
    what was observed. -/
def openRows : List RtMessage → List RtMessage → Except Error (List (ChatMessage × ChatAnchor))
  | _, [] => .ok []
  | before, m :: rows =>
    if before.any fun old => old.metadata.id = m.metadata.id || old.sequence = m.sequence then
      .error (.chatChannelIntegrity "duplicate message mapping")
    else do
      let observed ← anchor digest m
      let content ← session.openMessage md m
      let rest ← openRows (before ++ [m]) rows
      .ok ((⟨m, content⟩, observed) :: rest)

section

variable (messages : List ChatMessage)

def sequenceAt (index : Nat) : UInt64 :=
  ((messages[index]?).map (·.message.sequence)).getD 0

/-- The rows of the page from the oldest on. -/
def oldestFirst : List Nat :=
  (List.range messages.length).insertionSort fun a b =>
    sequenceAt messages a ≤ sequenceAt messages b

/-- What the page and the anchors say about the predecessor of a row. -/
def settlePredecessor (need : SequenceSet) (index : Nat) (row : ChatMessage)
    (stored : Option RtMessageId) : Except Error (List ChatMessage × SequenceSet) :=
  let prev := row.message.metadata.previousSequence
  let known := (messages.find? fun other => other.message.sequence = prev).map
    (·.message.metadata.id)
  match known.or stored with
  | none => .ok (messages, need.insert prev)
  | some id =>
    if id = row.message.metadata.previousId then .ok (messages, need)
    else if stored = some id ∨ messages.any fun other =>
        other.message.sequence = prev && other.content.isText then
      .ok (messages.set index { row with content := predecessorContradiction }, need)
    else .error (.chatChannelIntegrity "predecessor ID mismatch")

end

/-- One round of the loop over the rows from the oldest on. -/
def checkPredecessor (ledger : ChatLedger) (scope : ChatScope)
    (state : List ChatMessage × SequenceSet) (index : Nat) :
    Except Error (List ChatMessage × SequenceSet) :=
  match state.1[index]? with
  | none => .ok state
  | some row =>
    if !row.content.isText ∨ row.message.metadata.previousSequence = 0 then .ok state
    else do
      let stored ← ledger.chatAnchor scope row.message.metadata.previousSequence
      settlePredecessor state.1 state.2 index row (stored.map (·.id))

/-- The state of the loop over the predecessors that were asked for. -/
structure PredecessorState where
  seen : List UInt64
  messages : List ChatMessage
  need : SequenceSet
  observed : List ChatAnchor
  anchors : List ChatAnchor
  encodedBytes : Nat

/-- A row of the page next to a predecessor. -/
def settleRow (m : RtMessage) (authenticated : Bool) (row : ChatMessage) :
    Except Error ChatMessage :=
  if row.content.isText ∧ row.message.metadata.previousSequence = m.sequence ∧
      row.message.metadata.previousId ≠ m.metadata.id then
    if authenticated then .ok { row with content := predecessorContradiction }
    else .error (.chatChannelIntegrity "predecessor contradiction")
  else .ok row

/-- A predecessor that fits the budget. -/
def takePredecessor (state : PredecessorState) (m : RtMessage) (encodedBytes : Nat) :
    Except Error PredecessorState := do
  let observed ← anchor digest m
  let content ← session.openMessage md m
  let messages ← state.messages.mapM (settleRow m content.isText)
  .ok ⟨state.seen ++ [m.sequence], messages, state.need.erase m.sequence,
    state.observed ++ [observed],
    if content.isText then state.anchors ++ [observed] else state.anchors, encodedBytes⟩

/-- One round of the loop over the predecessors. -/
def acceptPredecessor (requested : List UInt64) (state : PredecessorState) (m : RtMessage) :
    Except Error PredecessorState :=
  if m.sequence ∉ requested ∨ m.sequence ∈ state.seen then
    .error (.chatChannelIntegrity "unrequested predecessor")
  else if session.historyByteLimit < chatHistoryBytes then do
    let bytes ← m.encoded.mapError .protocol
    if session.historyByteLimit < state.encodedBytes + bytes.length then
      .ok { state with seen := state.seen ++ [m.sequence] }
    else takePredecessor digest session md state m (state.encodedBytes + bytes.length)
  else takePredecessor digest session md state m state.encodedBytes

section

variable (fetch : RtThreadQuery → Except Error RtThreadPage)

/-- The predecessors that neither the page nor the anchors have are asked for. -/
def fetchPredecessors (state : PredecessorState) : Except Error PredecessorState :=
  let requested := state.need.toList.take chatPredecessors
  if requested.isEmpty then .ok state
  else do
    let page ← fetch ⟨md.id, [], requested⟩
    if !page.ranges.isEmpty ∨ requested.length < page.sequences.length then
      .error (.chatChannelIntegrity "predecessor response mismatch")
    else page.sequences.foldlM (acceptPredecessor digest session md requested) state

/-- A conflict with the anchors is the server's. -/
def anchorError : Error → Error
  | .chatConflict _ => .chatChannelIntegrity "message anchor contradiction"
  | error => error

def encodedSize (rows : List RtMessage) : Except Error Nat :=
  rows.foldlM (fun sum m => (m.encoded.mapError .protocol).map fun bytes => sum + bytes.length) 0

/-- The page before predecessors are asked for: opened, and each pointer compared with the page and
    the anchors. -/
def openPage (ledger : ChatLedger) (rows : List RtMessage) : Except Error PredecessorState := do
  let encodedBytes ← encodedSize rows
  if chatHistoryRows < rows.length ∨ session.historyByteLimit < encodedBytes then
    .error (.chatLimit "history page limit")
  else do
    let opened ← openRows digest session md [] rows
    let messages := opened.map (·.1)
    let (messages, need) ← (oldestFirst messages).foldlM
      (checkPredecessor ledger (session.scope md.id)) (messages, ∅)
    .ok ⟨[], messages, need, opened.map (·.2), [], encodedBytes⟩

/-- A page with its verdicts, and what goes to the anchors. -/
structure PageJudged where
  history : ChatHistory
  observed : List ChatAnchor
  anchors : List ChatAnchor

def judgePage (ledger : ChatLedger) (rows : List RtMessage) : Except Error PageJudged := do
  let state ← openPage digest session md ledger rows
  let state ← fetchPredecessors digest session md fetch state
  let anchors ← (state.messages.filter (·.content.isText)).mapM fun row =>
    anchor digest row.message
  .ok ⟨⟨session.scope md.id, state.messages, state.need.toList⟩, state.observed,
    anchors ++ state.anchors⟩

def verifyPage (ledger : ChatLedger) (rows : List RtMessage) :
    Except Error (ChatHistory × ChatLedger) := do
  let page ← judgePage digest session md fetch ledger rows
  let ledger ← (ledger.chatAcceptPage page.history.scope page.observed page.anchors).mapError
    anchorError
  .ok (page.history, ledger)

end

end

/-! ## Reading -/

/-- The answers to the requests of one read: the channel as it is listed, the page, and the
    predecessors. -/
structure ChatAnswers where
  channel : Except Error RtChannelMetadata
  recents : RtRecents → Except Error (List RtMessage)
  thread : RtThreadQuery → Except Error RtThreadPage
  predecessors : RtThreadQuery → Except Error RtThreadPage

section

variable (digest : Digest) (session : ChatSession) (answers : ChatAnswers) (channel : RtChannelId)

/-- The newest messages come first. -/
def isNewestFirst : List RtMessage → Bool
  | a :: b :: rows => b.sequence < a.sequence && isNewestFirst (b :: rows)
  | _ => true

def readRecent (limit : UInt64) (ledger : ChatLedger) : Except Error (ChatHistory × ChatLedger) :=
  if limit.toNat < 1 ∨ chatHistoryRows < limit.toNat then
    .error (.chatInvalidInput "recent page limit must be 1 to 1000")
  else do
    let md ← answers.channel
    let rows ← answers.recents ⟨channel, 0, limit⟩
    if limit.toNat < rows.length ∨ !isNewestFirst rows then
      .error (.chatChannelIntegrity "recent ordering or limit mismatch")
    else verifyPage digest session md answers.predecessors ledger rows

/-- The loop over the rows of a range, with the sequence number of the row before. -/
def checkRange (start stop : UInt64) : Option UInt64 → List RtMessage → Except Error Unit
  | _, [] => .ok ()
  | last, m :: rows =>
    if m.sequence < min start stop ∨ max start stop < m.sequence ∨
        last.any fun prev => if start ≤ stop then m.sequence ≤ prev else prev ≤ m.sequence then
      .error (.chatChannelIntegrity "history range/order mismatch")
    else checkRange start stop (some m.sequence) rows

def range (start stop : UInt64) : Except Error (List RtMessage) :=
  if start = 0 ∨ chatHistoryRows ≤ max start.toNat stop.toNat - min start.toNat stop.toNat ∨
      stop = 0 ∨ 2 ^ 63 ≤ start.toNat ∨ 2 ^ 63 ≤ stop.toNat then
    .error (.chatInvalidInput "history window must contain 1 to 1000 sequences")
  else do
    let page ← answers.thread ⟨channel, [⟨start, stop⟩], []⟩
    match page.ranges with
    | [rows] =>
      if !page.sequences.isEmpty then .error (.chatChannelIntegrity "history grouping mismatch")
      else do
        checkRange start stop none rows
        .ok rows
    | _ => .error (.chatChannelIntegrity "history grouping mismatch")

def readThread (start stop : UInt64) (ledger : ChatLedger) :
    Except Error (ChatHistory × ChatLedger) := do
  let md ← answers.channel
  let rows ← range answers channel start stop
  verifyPage digest session md answers.predecessors ledger rows

/-- The rows after a cursor, and whether the page may have left some out. -/
def rowsAfter (head after limit : UInt64) : Except Error (List RtMessage × Bool) :=
  let gap : Bool := head < after || limit.toNat < head.toNat - after.toNat
  if after < head then
    let start := UInt64.ofNat (max (after.toNat + 1) (head.toNat - (limit.toNat - 1)))
    (range answers channel head start).map fun rows =>
      (rows, gap || rows.length ≠ head.toNat - start.toNat + 1)
  else .ok ([], gap)

def readAfter (after limit : UInt64) (ledger : ChatLedger) :
    Except Error ((ChatHistory × Bool) × ChatLedger) :=
  if limit.toNat < 1 ∨ chatHistoryRows < limit.toNat ∨ 2 ^ 63 ≤ after.toNat then
    .error (.chatInvalidInput "invalid incremental history window")
  else do
    let md ← answers.channel
    let head := (md.lastMessage.map (·.sequence)).getD 0
    let (rows, gap) ← rowsAfter answers channel head after limit
    let (history, ledger) ← verifyPage digest session md answers.predecessors ledger rows
    .ok ((history, gap), ledger)

end

end Foks.Client
