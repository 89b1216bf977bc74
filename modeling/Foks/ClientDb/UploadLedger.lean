/-
  The ledger of file uploads (`foks-client-db`, `repositories/uploads/receipts.rs`).

  An upload is known by its handle, like a submission through an adapter, and its receipts are
  pruned in the same way with a mark of their own. A handle also names the database it was issued
  for. Receipts from before there were handles are kept for good and say nothing of the intent.

  A receipt and its upload are one row here. What happens to the upload while it is there is an
  arbitrary step that keeps what it was registered with.
-/
import Foks.ClientDb.AdapterLedger

namespace Foks.ClientDb

open Foks.Lib Foks.Crypto

/-! ## Handles and tables -/

inductive UploadHandle where
  | legacy (id : FixedBytes 16)
  | v1 (databaseId : FixedBytes 16) (issuedAt : UInt64) (random : FixedBytes 16)
  deriving DecidableEq

namespace UploadHandle

def databaseId : UploadHandle → Option (FixedBytes 16)
  | legacy _ => none
  | v1 databaseId _ _ => some databaseId

def issuedAt : UploadHandle → Option UInt64
  | legacy _ => none
  | v1 _ issuedAt _ => some issuedAt

/-- The identifier, or `u1-`, the database, the time and the random bytes. -/
def text : UploadHandle → List UInt8
  | legacy id => hexText id.bytes
  | v1 databaseId issuedAt random =>
    [117, 49, 45] ++ hexText databaseId.bytes ++ [45] ++ hexText (toBE 8 issuedAt.toNat) ++ [45] ++
      hexText random.bytes

/-- The time in the handle. -/
def issued (handle : UploadHandle) : Nat := handle.issuedAt.elim 0 (·.toNat)

end UploadHandle

def uploadHandleHash (digest : Digest) (handle : UploadHandle) : Hash :=
  prefixedHash digest 0x6d7059b132f8ecca handle.text

structure UploadScope where
  hostId : List UInt8
  uid : List UInt8
  partyId : List UInt8
  deriving DecidableEq

def UploadScope.account (scope : UploadScope) : Account := (scope.hostId, scope.uid)

inductive UploadState where
  | preparing
  | ready
  | uploading
  | contentComplete
  | publishing
  | remoteVerified
  | finalized
  | needsSource
  | blocked
  | cancelled
  | awaitingSource
  | inlineUntracked
  deriving DecidableEq

def UploadState.terminal (state : UploadState) : Bool :=
  state = .finalized || state = .cancelled || state = .inlineUntracked

/-- A row of `kv_upload_handles` with its rows of `kv_uploads` and `kv_upload_cleanup`. -/
structure UploadReceipt where
  handle : UploadHandle
  operationId : FixedBytes 16
  scope : UploadScope
  intent : Option Hash
  state : UploadState
  createdAt : Nat
  expiresAt : Option Nat
  reservedBytes : Nat
  namespaceChild : Option (FixedBytes 16)
  adapterParent : Option (FixedBytes 16)
  cleanupPhase : Nat
  hasChildren : Bool
  -- The check of the table: a receipt with a time has an intent, an older one has none.
  bound : handle.issuedAt.isSome = intent.isSome
  deriving DecidableEq

def UploadReceipt.account (row : UploadReceipt) : Account := row.scope.account

structure UploadRegistration where
  handle : UploadHandle
  internalId : FixedBytes 16
  state : UploadState
  intent : Option Hash

def UploadReceipt.registration (row : UploadReceipt) : UploadRegistration :=
  ⟨row.handle, row.operationId, row.state, row.intent⟩

structure UploadLimits where
  maxReservedBytes : Nat
  maxPending : Nat
  maxRows : Nat
  maxBytes : Nat

structure UploadLedger where
  databaseId : FixedBytes 16
  limits : UploadLimits
  clocks : List ClockRow
  receipts : List UploadReceipt

def receiptBytes : Nat := 1024

variable {row : UploadReceipt}

namespace UploadLedger

variable (digest : Digest)

/-! ## The calls -/

def scopeValid (scope : UploadScope) : Except Error Unit :=
  if scope.hostId.length ≠ 33 ∨ scope.uid.length ≠ 33 ∨ scope.partyId.length ≠ 33 then
    .error .uploadIdentityConflict
  else .ok ()

section

variable (db : UploadLedger) (handle : UploadHandle)

def lookup (scope : UploadScope) : Except Error (Option UploadReceipt) :=
  match db.receipts.find? fun row =>
    uploadHandleHash digest row.handle = uploadHandleHash digest handle with
  | none => .ok none
  | some row =>
    if row.handle.text ≠ handle.text ∨ scope ≠ row.scope then .error .uploadIdentityConflict
    else .ok (some row)

variable (account : Account)

def clock : Option AdapterClockState :=
  clockOf db.clocks account

def write (state : AdapterClockState) : Except Error UploadLedger := do
  let clocks ← writeClock "upload time" (account.1.length ≠ 33 || account.2.length ≠ 33) db.clocks
    account state
  .ok { db with clocks }

def validateClock (sample : AdapterTimeSample) : Except Error AdapterClockState :=
  (AdapterClockState.validate (db.clock account) sample).mapError fun _ => .uploadClockUntrusted

/-- Room for one more upload. -/
def admitNew : Except Error Unit :=
  let reserved := (db.receipts.map (·.reservedBytes)).sum
  let pending := (db.receipts.filter fun row => !row.state.terminal).length
  if db.limits.maxPending ≤ pending then .error .uploadPendingFull
  else if db.limits.maxReservedBytes < reserved then .error .uploadSpoolFull
  else .ok ()

/-- Room for one more receipt. The triggers count those that have a time. -/
def receiptAdmit : Except Error Unit :=
  let rows := (db.receipts.filter fun row => row.handle.issuedAt.isSome).length
  if rows < db.limits.maxRows ∧ receiptBytes * (rows + 1) ≤ db.limits.maxBytes then .ok ()
  else .error .uploadRetentionFull

def checkFresh (issuedAt : Nat) (state : AdapterClockState) : Except Error Unit :=
  if issuedAt > saturatingAdd state.validatedTimeFloor skewSeconds then .error .uploadFutureHandle
  else if state.validatedTimeFloor < state.rejectIssuedBefore then .error .uploadClockUntrusted
  else .ok ()

def receiptRow (hissued : handle.issuedAt.isSome = true) (candidateId : FixedBytes 16)
    (scope : UploadScope) (binding : Hash) (state : AdapterClockState) : UploadReceipt where
  handle := handle
  operationId := candidateId
  scope := scope
  intent := some binding
  state := .awaitingSource
  createdAt := state.validatedTimeFloor
  expiresAt := none
  reservedBytes := 0
  namespaceChild := none
  adapterParent := none
  cleanupPhase := 0
  hasChildren := false
  bound := hissued

/-- The inserts of a receipt, with the constraints of the tables. -/
def insertReceipt (row : UploadReceipt) : Except Error UploadLedger := do
  if db.receipts.any (fun other => other.operationId = row.operationId) then
    .error .uploadIdentityConflict
  else
  let _ ← sqliteInteger "upload creation" row.createdAt
  let _ ← sqliteInteger "upload issue" row.handle.issued
  if db.receipts.any (fun other =>
      uploadHandleHash digest other.handle = uploadHandleHash digest row.handle) then
    .error .constraint
  else .ok { db with receipts := db.receipts ++ [row] }

/-- A handle that was not seen. The clock is written first; a rejection is committed, any other
    error undoes it. -/
def enterUpload (hissued : handle.issuedAt.isSome = true) (candidateId : FixedBytes 16)
    (scope : UploadScope) (binding : Hash) (state : AdapterClockState) (expired : Bool) :
    Except Error (Except Error UploadRegistration × UploadLedger) := do
  let db ← db.write scope.account state
  if expired then .ok (.error .uploadExpired, db) else
  checkFresh handle.issued state
  db.admitNew
  db.receiptAdmit
  let row := receiptRow handle hissued candidateId scope binding state
  let db ← db.insertReceipt digest row
  .ok (.ok row.registration, db)

/-- A handle that was not seen, before its time is looked at. -/
def unseen (candidateId : FixedBytes 16) (scope : UploadScope) (binding : Hash)
    (sample : AdapterTimeSample) :
    Except Error (Except Error UploadRegistration × UploadLedger) := do
  let generation ← okOr .uploadLegacyReadOnly handle.databaseId
  if generation ≠ db.databaseId then .error .uploadGenerationMismatch else
  if hissued : handle.issuedAt.isSome = true then
    if handle.issued < AdapterClockState.markOf (db.clock scope.account) then
      .error .uploadExpired
    else
    let state ← db.validateClock scope.account sample
    let checked := AdapterClockState.unseenExpired handle.issued state
    db.enterUpload digest handle hissued candidateId scope binding checked.1 checked.2
  else .error .uploadLegacyReadOnly

/-- The transaction of `register_upload_intent`. -/
def registration (db : UploadLedger) (handle : UploadHandle) (candidateId : FixedBytes 16)
    (scope : UploadScope) (binding : Hash) (sample : AdapterTimeSample) :
    Except Error (Except Error UploadRegistration × UploadLedger) := do
  scopeValid scope
  match ← db.lookup digest handle scope with
  | some row =>
    if row.intent.any (· ≠ binding) then .error .uploadIdentityConflict
    else .ok (.ok { row.registration with handle }, db)
  | none => db.unseen digest handle candidateId scope binding sample

def registerUploadIntent (candidateId : FixedBytes 16) (scope : UploadScope) (binding : Hash)
    (sample : AdapterTimeSample) : Except Error UploadRegistration × UploadLedger :=
  transact db (db.registration digest handle candidateId scope binding sample)

/-- The time that new handles are issued with. -/
def uploadIssuanceContext (scope : UploadScope) (sample : AdapterTimeSample) :
    Except Error (FixedBytes 16 × Nat) × UploadLedger :=
  transact db do
    scopeValid scope
    let state ← db.validateClock scope.account sample
    if state.validatedTimeFloor < state.rejectIssuedBefore then .error .uploadClockUntrusted else
    let after ← db.write scope.account state
    .ok (.ok (db.databaseId, state.validatedTimeFloor), after)

/-- Receipts with a time of their own that are cleaned up and whose time is over, the oldest
    first. -/
def pruneCandidates (now limit : Nat) : List UploadReceipt :=
  ((db.receipts.filter fun row => row.account = account ∧ row.handle.issuedAt.isSome ∧
      row.expiresAt.any (· ≤ now) ∧ row.state.terminal ∧ row.reservedBytes = 0 ∧
      row.namespaceChild = none ∧ row.adapterParent = none ∧ row.cleanupPhase = 4 ∧
      row.hasChildren = false).mergeSort
    fun a b => toLex (a.expiresAt.getD 0, ofBE (uploadHandleHash digest a.handle).bytes) ≤
      toLex (b.expiresAt.getD 0, ofBE (uploadHandleHash digest b.handle).bytes)).take limit

def pruneUploadReceipts (sample : AdapterTimeSample) (limit : Nat) :
    Except Error Nat × UploadLedger :=
  transact db do
    if ¬ (1 ≤ limit ∧ limit ≤ 128) then
      .error (.invalidMutationOperation "upload prune limit must be 1..128")
    else
    let state ← db.validateClock account sample
    let now ← sqliteInteger "upload prune" state.validatedTimeFloor
    let rows := db.pruneCandidates digest account now limit
    let state ← ((rows.map (·.handle.issued)).foldlM AdapterClockState.rejectRow state).mapError
      fun _ => .uploadClockUntrusted
    let kept := db.receipts.filter fun row => !rows.any fun other =>
      uploadHandleHash digest other.handle = uploadHandleHash digest row.handle
    let db ← db.write account state
    .ok (.ok rows.length, { db with receipts := kept })

def reanchorUploadClock (expected : AdapterClockState) (sample : AdapterTimeSample) :
    Except Error AdapterClockState × UploadLedger :=
  transact db do
    if db.clock account ≠ some expected then .error .uploadClockUntrusted else
    let state ← (AdapterClockState.reanchor (db.clock account) sample).mapError
      fun _ => .uploadClockUntrusted
    let db ← db.write account state
    .ok (.ok state, db)

/-! ## What a call does -/

/-- The handle has a receipt of the account. -/
def Present : Account → UploadHandle → Prop :=
  Entered UploadReceipt.account UploadReceipt.handle db.receipts

def mark : Nat :=
  AdapterClockState.markOf (db.clock account)

/-- Receipts have different hashes. -/
def Distinct : Prop :=
  Keyed (fun row => uploadHandleHash digest row.handle) db.receipts

end

/-- What a step does to the receipts and the marks. -/
def Effect (db db' : UploadLedger) : Prop :=
  LedgerEffect UploadReceipt.account UploadReceipt.handle (uploadHandleHash digest)
    UploadHandle.issued db.receipts db'.receipts db.mark db'.mark

section

variable {digest} {db db' : UploadLedger} {account : Account} {handle : UploadHandle}
  {candidateId : FixedBytes 16} {scope : UploadScope} {binding : Hash}
  {sample : AdapterTimeSample} {state : AdapterClockState}

theorem Effect.of_receipts (hdistinct : db.Distinct digest) (hsame : db'.receipts = db.receipts)
    (hmark : ∀ account, db.mark account ≤ db'.mark account) : db.Effect digest db' := by
  unfold Effect
  rw [hsame]
  exact .of_rows hdistinct hmark

theorem Effect.refl (hdistinct : db.Distinct digest) : db.Effect digest db :=
  .of_receipts hdistinct rfl fun _ => le_refl _

theorem write_eq_ok (h : db.write account state = .ok db') :
    ∃ clocks, db' = { db with clocks } ∧
      writeClock "upload time" (account.1.length ≠ 33 || account.2.length ≠ 33) db.clocks account
        state = .ok clocks := by
  obtain ⟨clocks, hwrite, h⟩ := bind_eq_ok.mp h
  cases h
  exact ⟨clocks, rfl, hwrite⟩

theorem Effect.of_write (hdistinct : db.Distinct digest) (h : db.write account state = .ok db')
    (hmark : db.mark account ≤ state.rejectIssuedBefore) : db.Effect digest db' := by
  obtain ⟨clocks, rfl, hclocks⟩ := write_eq_ok h
  exact .of_receipts hdistinct rfl (marks_le_writeClock hclocks hmark)

theorem validateClock_mark (h : db.validateClock account sample = .ok state) :
    state.rejectIssuedBefore = db.mark account :=
  AdapterClockState.validate_mark (mapError_eq_ok.mp h)

theorem insertReceipt_eq_ok (h : db.insertReceipt digest row = .ok db') : (∀ other ∈ db.receipts,
        uploadHandleHash digest other.handle ≠ uploadHandleHash digest row.handle) ∧
      db' = { db with receipts := db.receipts ++ [row] } := by
  obtain ⟨-, h⟩ := ite_error_eq_ok.mp h
  obtain ⟨_, -, h⟩ := bind_eq_ok.mp h
  obtain ⟨_, -, h⟩ := bind_eq_ok.mp h
  obtain ⟨hguard, h⟩ := ite_error_eq_ok.mp h
  cases h
  refine ⟨fun other hother hhash => hguard (List.any_eq_true.mpr ⟨other, hother, ?_⟩), rfl⟩
  exact decide_eq_true hhash

theorem insertReceipt_errors (db : UploadLedger) (row : UploadReceipt) :
    Ensures NotExpired (fun _ => True) (db.insertReceipt digest row) := by
  refine .guard (fun _ => ⟨nofun, nofun⟩) fun _ => ?_
  refine (sqliteInteger_errors _ _).bind fun _ _ => (sqliteInteger_errors _ _).bind fun _ _ => ?_
  exact .guard (fun _ => ⟨nofun, nofun⟩) fun _ => trivial

theorem checkFresh_errors (issuedAt : Nat) (state : AdapterClockState) :
    Ensures NotExpired (fun _ => True) (checkFresh issuedAt state) :=
  limits_errors ⟨nofun, nofun⟩ ⟨nofun, nofun⟩

theorem admitNew_errors (db : UploadLedger) : Ensures NotExpired (fun _ => True) db.admitNew :=
  limits_errors ⟨nofun, nofun⟩ ⟨nofun, nofun⟩

theorem receiptAdmit_errors (db : UploadLedger) :
    Ensures NotExpired (fun _ => True) db.receiptAdmit := by
  unfold receiptAdmit
  dsimp only
  split
  · trivial
  · exact ⟨nofun, nofun⟩

theorem mem_pruneCandidates {now limit : Nat}
    (h : row ∈ db.pruneCandidates digest account now limit) :
    row ∈ db.receipts ∧ row.account = account :=
  (mem_of_mem_take_mergeSort h).imp_right fun hdone => (of_decide_eq_true hdone).1

theorem scopeValid_errors (scope : UploadScope) :
    Ensures NotExpired (fun _ => True) (scopeValid scope) :=
  .guard (fun _ => ⟨nofun, nofun⟩) fun _ => trivial

theorem lookup_errors (db : UploadLedger) (handle : UploadHandle) (scope : UploadScope) :
    Ensures NotExpired (· = db.receipts.find? fun row =>
      uploadHandleHash digest row.handle = uploadHandleHash digest handle)
      (db.lookup digest handle scope) := by
  unfold lookup
  split
  · rename_i hnone
    exact hnone.symm
  · rename_i hsome
    exact .guard (fun _ => ⟨nofun, nofun⟩) fun _ => hsome.symm

/-! ## Answers -/

/-- The handle is not there and is never taken again. -/
def SpentHandle (db : UploadLedger) (account : Account) (handle : UploadHandle) : Prop :=
  Spent Present mark UploadHandle.issued db account handle

/-- What a call that was asked about a handle leaves: after the answer that it is expired the handle
    is spent. -/
def Answered (digest : Digest) (db : UploadLedger) (account : Account) (handle : UploadHandle)
    (answer : Except Error UploadRegistration) (after : UploadLedger) : Prop :=
  db.Effect digest after ∧ (answer = .error .uploadExpired → after.SpentHandle account handle)

section

variable (hdistinct : db.Distinct digest)
include hdistinct

theorem Answered.refused {error : Error} (hne : error ≠ .uploadExpired) :
    Answered digest db account handle (.error error) db :=
  ⟨.refl hdistinct, fun h => absurd (Except.error.inj h) hne⟩

/-- Either the handle is expired and the rejection stays, or it was issued at the mark or later and
    is entered. -/
theorem enterUpload_answered {hissued : handle.issuedAt.isSome = true} {expired : Bool}
    (habsent : ¬ db.Present scope.account handle)
    (hmark : db.mark scope.account ≤ state.rejectIssuedBefore)
    (hexpired : expired = true ↔ handle.issued < state.rejectIssuedBefore) :
    Ensures NotExpired (fun done => Answered digest db scope.account handle done.1 done.2)
      (db.enterUpload digest handle hissued candidateId scope binding state expired) := by
  refine Ensures.bind (writeClock_errors ..).self fun clocked hwrite => ?_
  split
  · rename_i htrue
    refine ⟨.of_write hdistinct hwrite hmark, fun _ => ?_⟩
    obtain ⟨clocks, rfl, hclocks⟩ := write_eq_ok hwrite
    exact ⟨habsent, lt_marks_writeClock hclocks (hexpired.mp htrue)⟩
  · rename_i hfalse
    refine (checkFresh_errors _ _).bind fun _ _ => (admitNew_errors _).bind fun _ _ => ?_
    refine (receiptAdmit_errors _).bind fun _ _ => ?_
    refine Ensures.bind (insertReceipt_errors _ _).self fun entered hinsert => ⟨?_, nofun⟩
    obtain ⟨clocks, rfl, hclocks⟩ := write_eq_ok hwrite
    obtain ⟨hfresh, rfl⟩ := insertReceipt_eq_ok hinsert
    exact LedgerEffect.of_insert hdistinct hfresh (marks_le_writeClock hclocks hmark)
      (hmark.trans (Nat.not_lt.mp fun hlt => hfalse (hexpired.mpr hlt)))

theorem unseen_answered (habsent : ¬ db.Present scope.account handle) :
    Ensures (fun error => Answered digest db scope.account handle (.error error) db)
      (fun done => Answered digest db scope.account handle done.1 done.2)
      (db.unseen digest handle candidateId scope binding sample) := by
  refine Ensures.bind (ensures_okOr (.refused hdistinct nofun) _) fun generation _ => ?_
  refine .guard (fun _ => .refused hdistinct nofun) fun _ => ?_
  split
  · refine .guard (fun hmark => ⟨.refl hdistinct, fun _ => ⟨habsent, hmark⟩⟩) fun _ => ?_
    have hclock : Ensures NotExpired (fun _ => True) (db.validateClock scope.account sample) := by
      unfold validateClock
      cases AdapterClockState.validate (db.clock scope.account) sample with
      | ok state => trivial
      | error error => exact ⟨nofun, nofun⟩
    refine Ensures.bind (hclock.self.mono (fun _ hne => .refused hdistinct hne.2) fun _ => id)
      fun state hstate => ?_
    have hle := AdapterClockState.mark_le_unseenExpired (mapError_eq_ok.mp hstate) handle.issued
    exact (enterUpload_answered hdistinct habsent hle
      (AdapterClockState.unseenExpired_iff _ _)).mono (fun _ hne => .refused hdistinct hne.2)
        fun _ => id
  · exact .refused hdistinct nofun

theorem uploadIssuanceContext_effect :
    db.Effect digest (db.uploadIssuanceContext scope sample).2 := by
  unfold uploadIssuanceContext transact
  split
  · exact .refl hdistinct
  rename_i committed hcommitted
  obtain ⟨_, -, h⟩ := bind_eq_ok.mp hcommitted
  obtain ⟨state, hstate, h⟩ := bind_eq_ok.mp h
  obtain ⟨-, h⟩ := ite_error_eq_ok.mp h
  obtain ⟨after, hwrite, h⟩ := bind_eq_ok.mp h
  cases h
  exact .of_write hdistinct hwrite (validateClock_mark hstate).ge

theorem reanchorUploadClock_effect {expected : AdapterClockState} :
    db.Effect digest (db.reanchorUploadClock account expected sample).2 := by
  unfold reanchorUploadClock transact
  split
  · exact .refl hdistinct
  rename_i committed hcommitted
  obtain ⟨-, h⟩ := ite_error_eq_ok.mp hcommitted
  obtain ⟨state, hstate, h⟩ := bind_eq_ok.mp h
  obtain ⟨after, hwrite, h⟩ := bind_eq_ok.mp h
  cases h
  exact .of_write hdistinct hwrite (AdapterClockState.reanchor_mark (mapError_eq_ok.mp hstate)).ge

theorem pruneUploadReceipts_effect {limit : Nat} :
    db.Effect digest (db.pruneUploadReceipts digest account sample limit).2 := by
  unfold pruneUploadReceipts transact
  split
  · exact .refl hdistinct
  rename_i committed hcommitted
  obtain ⟨-, h⟩ := ite_error_eq_ok.mp hcommitted
  obtain ⟨state, hstate, h⟩ := bind_eq_ok.mp h
  obtain ⟨now, -, h⟩ := bind_eq_ok.mp h
  obtain ⟨marked, hmarked, h⟩ := bind_eq_ok.mp h
  obtain ⟨clocked, hwrite, h⟩ := bind_eq_ok.mp h
  obtain rfl := Except.ok.inj h
  obtain ⟨hle, hrows⟩ := AdapterClockState.foldlM_rejectRow (mapError_eq_ok.mp hmarked)
  rw [validateClock_mark hstate] at hle
  obtain ⟨clocks, rfl, hclocks⟩ := write_eq_ok hwrite
  refine LedgerEffect.of_remove hdistinct (fun row hrow => (mem_pruneCandidates hrow).1)
    (marks_le_writeClock hclocks hle) fun row hrow => ?_
  obtain rfl := (mem_pruneCandidates hrow).2
  exact lt_marks_writeClock hclocks (hrows row.handle.issued (List.mem_map_of_mem hrow))

theorem registerUploadIntent_answered :
    Answered digest db scope.account handle
      (db.registerUploadIntent digest handle candidateId scope binding sample).1
      (db.registerUploadIntent digest handle candidateId scope binding sample).2 := by
  have hrefused (error : Error) (hne : NotExpired error) :
      Answered digest db scope.account handle (.error error) db := .refused hdistinct hne.2
  refine transact_ensures (Ensures.bind ((scopeValid_errors scope).mono hrefused fun _ => id)
    fun _ _ => Ensures.bind ((lookup_errors db handle scope).mono hrefused fun _ => id)
      fun existing hlookup => ?_)
  cases existing with
  | some row => exact .guard (fun _ => .refused hdistinct nofun) fun _ => ⟨.refl hdistinct, nofun⟩
  | none => exact unseen_answered hdistinct (not_entered_of_find? hlookup.symm scope.account)

/-- While a handle has a receipt, an upload of the same scope and intent is answered from it, any
    other is refused, and nothing changes. Older receipts have no intent to compare. -/
theorem registerUploadIntent_of_mem (hrow : row ∈ db.receipts) (candidateId : FixedBytes 16)
    (scope : UploadScope) (binding : Hash) (sample : AdapterTimeSample) :
    (db.registerUploadIntent digest row.handle candidateId scope binding sample).2 = db ∧
      ((db.registerUploadIntent digest row.handle candidateId scope binding sample).1.isOk →
        scope = row.scope ∧ (row.handle.issuedAt.isSome → row.intent = some binding)) := by
  have hfind : db.receipts.find? (fun other =>
      uploadHandleHash digest other.handle = uploadHandleHash digest row.handle) = some row :=
    hdistinct.find?_eq_some.mpr ⟨hrow, rfl⟩
  unfold registerUploadIntent registration lookup
  rw [hfind]
  cases scopeValid scope with
  | error error => exact ⟨rfl, nofun⟩
  | ok _ =>
    rw [ok_bind]
    dsimp only
    split
    · exact ⟨rfl, nofun⟩
    · rename_i hsame
      have hscope : scope = row.scope := by
        by_contra hne
        exact hsame (.inr hne)
      rw [ok_bind]
      dsimp only
      split
      · exact ⟨rfl, nofun⟩
      · rename_i hintent
        refine ⟨rfl, fun _ => ⟨hscope, fun hissued => ?_⟩⟩
        rw [row.bound] at hissued
        obtain ⟨intent, hsome⟩ := Option.isSome_iff_exists.mp hissued
        rw [hsome] at hintent ⊢
        by_contra hne
        refine hintent (decide_eq_true fun heq => hne ?_)
        rw [heq]

end

end

/-! ## Runs -/

/-- One step: a call; a clock that is looked at; or progress of the uploads, which keeps what a
    receipt was entered with. -/
inductive Step : UploadLedger → UploadLedger → Prop where
  | issue (db : UploadLedger) (scope : UploadScope) (sample : AdapterTimeSample) :
      Step db (db.uploadIssuanceContext scope sample).2
  | register (db : UploadLedger) (handle : UploadHandle) (candidateId : FixedBytes 16)
      (scope : UploadScope) (binding : Hash) (sample : AdapterTimeSample) :
      Step db (db.registerUploadIntent digest handle candidateId scope binding sample).2
  | prune (db : UploadLedger) (account : Account) (sample : AdapterTimeSample) (limit : Nat) :
      Step db (db.pruneUploadReceipts digest account sample limit).2
  | reanchor (db : UploadLedger) (account : Account) (expected : AdapterClockState)
      (sample : AdapterTimeSample) : Step db (db.reanchorUploadClock account expected sample).2
  | tick {db db' : UploadLedger} {account : Account} {sample : AdapterTimeSample}
      {state : AdapterClockState} (hstate : db.validateClock account sample = .ok state)
      (hwrite : db.write account state = .ok db') : Step db db'
  | progress (db : UploadLedger) (update : UploadReceipt → UploadReceipt)
      (hkeeps : ∀ row, (update row).handle = row.handle ∧ (update row).scope = row.scope ∧
        (update row).intent = row.intent)
      (limits : UploadLimits) : Step db { db with limits, receipts := db.receipts.map update }

variable {digest}

theorem Step.effect {db db' : UploadLedger} (h : Step digest db db')
    (hdistinct : db.Distinct digest) : db.Effect digest db' := by
  cases h with
  | issue scope sample => exact uploadIssuanceContext_effect hdistinct
  | register handle candidateId scope binding sample =>
    exact (registerUploadIntent_answered hdistinct).1
  | prune account sample limit => exact pruneUploadReceipts_effect hdistinct
  | reanchor account expected sample => exact reanchorUploadClock_effect hdistinct
  | tick hstate hwrite =>
    exact .of_write hdistinct hwrite (validateClock_mark hstate).ge
  | progress update hkeeps limits =>
    refine LedgerEffect.of_map hdistinct update (fun row => ?_) fun _ => le_refl _
    obtain ⟨hhandle, hscope, -⟩ := hkeeps row
    exact ⟨congrArg UploadScope.account hscope, hhandle⟩

/-- The ledger of uploads forgets nothing that matters. -/
theorem watermarked : Watermarked (Step digest) (Distinct digest) Present mark
    UploadHandle.issued where
  keeps hstep hinv := (hstep.effect hinv).keeps
  mark_le hstep hinv := (hstep.effect hinv).mark_le
  removed hstep hinv := (hstep.effect hinv).removed
  inserted hstep hinv := (hstep.effect hinv).inserted

end UploadLedger

end Foks.ClientDb
