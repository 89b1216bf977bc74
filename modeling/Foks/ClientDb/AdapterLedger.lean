/-
  The ledger of submissions through an adapter (`foks-client-db`, `repositories/adapter.rs` and
  `adapter/clock.rs`).

  A submission is known by its handle, which says when it was issued. While its row is there, the
  same submission is answered from the row and another one under the handle is refused. Rows that
  are done are pruned after a month; each moves the mark of its account above the time it was issued
  at, and new rows are taken only at the mark or above it. So a handle is entered at most once
  (`AdapterLedger.watermarked`).

  The journal of operations is a parameter. What else happens to a row while it is there (its state,
  its operation, its expiry) is an arbitrary step that keeps what it was entered with.
-/
import Foks.ClientDb.ReceiptClock
import Foks.Crypto.PrefixedHash
import Foks.Lib.Utf8
import Foks.Lib.Watermark

namespace Foks.ClientDb

open Foks.Lib Foks.Crypto

/-! ## Handles -/

structure SubmissionHandle where
  issuedAt : UInt64
  random : FixedBytes 16
  deriving DecidableEq

/-- `v1-`, the time and the random bytes. -/
def SubmissionHandle.text (handle : SubmissionHandle) : List UInt8 :=
  [118, 49, 45] ++ hexText (toBE 8 handle.issuedAt.toNat) ++ [45] ++ hexText handle.random.bytes

def adapterHandleHash (digest : Digest) (handle : SubmissionHandle) : Hash :=
  prefixedHash digest 0x14d86cedea890362 handle.text

/-! ## Tables -/

inductive AdapterLedgerState where
  | live
  | committed
  | rejected
  deriving DecidableEq

/-- A row of `kv_adapter_submissions`. The column `issued_at` is the time in the handle. -/
structure AdapterSubmission where
  handle : SubmissionHandle
  hostId : List UInt8
  userId : List UInt8
  teamId : List UInt8
  inputHash : Hash
  internalId : Option (FixedBytes 16)
  state : AdapterLedgerState
  ancillaryCommitted : Bool
  nodeId : Option (FixedBytes 17)
  createdAt : Nat
  terminalAt : Option Nat
  expiresAt : Option Nat
  deriving DecidableEq

def AdapterSubmission.account (row : AdapterSubmission) : Account := (row.hostId, row.userId)

def AdapterSubmission.issuedAt (row : AdapterSubmission) : Nat := row.handle.issuedAt.toNat

/-- What a submission asks for. -/
structure MutationOperation where
  isKvAdapter : Bool
  operationId : FixedBytes 16
  hostId : List UInt8
  scopeId : List UInt8
  subjectId : List UInt8
  requestHash : Hash

def MutationOperation.account (operation : MutationOperation) : Account :=
  (operation.hostId, operation.scopeId)

/-- How the journal refuses an operation. -/
inductive JournalError where
  | invalidMutationOperation (message : String)
  | unknownHost
  | constraint

def JournalError.toError : JournalError → Error
  | .invalidMutationOperation message => .invalidMutationOperation message
  | .unknownHost => .unknownHost
  | .constraint => .constraint

structure AdapterLedger (Journal : Type) where
  hosts : List (List UInt8)
  clocks : List ClockRow
  submissions : List AdapterSubmission
  journal : Journal

namespace AdapterLedger

variable {Journal : Type} (digest : Digest)
  (recordMutation : Journal → MutationOperation → Except JournalError Journal)

/-! ## The calls -/

section

variable (db : AdapterLedger Journal) (account : Account)

def clock : Option AdapterClockState :=
  clockOf db.clocks account

/-- The host of a clock is known, and a trigger refuses that its mark goes down. -/
def refusesClock (state : AdapterClockState) : Bool :=
  !db.hosts.contains account.1 || account.2.length ≠ 33 ||
    state.rejectIssuedBefore < AdapterClockState.markOf (db.clock account)

def write (state : AdapterClockState) : Except Error (AdapterLedger Journal) := do
  let clocks ← writeClock "adapter time" (db.refusesClock account state) db.clocks account state
  .ok { db with clocks }

variable (handle : SubmissionHandle)

def lookup : Except Error (Option AdapterSubmission) :=
  match db.submissions.find? fun row =>
    adapterHandleHash digest row.handle = adapterHandleHash digest handle with
  | none => .ok none
  | some row =>
    if row.handle.text = handle.text then .ok (some row) else .error .adapterIdentityConflict

def checkFresh (state : AdapterClockState) : Except Error Unit :=
  if handle.issuedAt.toNat > saturatingAdd state.validatedTimeFloor skewSeconds then
    .error .adapterFutureHandle
  else if state.validatedTimeFloor < state.rejectIssuedBefore then .error .adapterClockUntrusted
  else .ok ()

/-- The transaction of `check_adapter_admission`. That a handle is expired is answered after its
    rejection was committed. -/
def admission (sample : AdapterTimeSample) :
    Except Error (Except Error Unit × AdapterLedger Journal) := do
  match ← db.lookup digest handle with
  | some row =>
    if row.account ≠ account then .error .adapterIdentityConflict else .ok (.ok (), db)
  | none =>
    if handle.issuedAt.toNat < AdapterClockState.markOf (db.clock account) then
      .error .adapterExpired
    else
    let state ← AdapterClockState.validate (db.clock account) sample
    let checked := AdapterClockState.unseenExpired handle.issuedAt.toNat state
    let db ← db.write account checked.1
    .ok (if checked.2 then .error .adapterExpired else checkFresh handle checked.1, db)

def checkAdapterAdmission (sample : AdapterTimeSample) :
    Except Error Unit × AdapterLedger Journal :=
  transact db (db.admission digest account handle sample)

/-- The row and the operation say the same. -/
def sameSubmission (row : AdapterSubmission) (operation : MutationOperation) : Bool :=
  row.hostId = operation.hostId && row.userId = operation.scopeId &&
    row.teamId = operation.subjectId && row.inputHash = operation.requestHash &&
    row.internalId = some operation.operationId

variable (operation : MutationOperation)

def submissionRow (state : AdapterClockState) : AdapterSubmission where
  handle := handle
  hostId := operation.hostId
  userId := operation.scopeId
  teamId := operation.subjectId
  inputHash := operation.requestHash
  internalId := some operation.operationId
  state := .live
  ancillaryCommitted := false
  nodeId := none
  createdAt := state.validatedTimeFloor
  terminalAt := none
  expiresAt := none

/-- The insert, with the constraints of the table. -/
def insertSubmission (row : AdapterSubmission) : Except Error (AdapterLedger Journal) := do
  let _ ← sqliteInteger "adapter time" row.issuedAt
  let _ ← sqliteInteger "adapter time" row.createdAt
  if !db.hosts.contains row.hostId ∨ row.userId.length ≠ 33 ∨
      (row.teamId.length ≠ 0 ∧ row.teamId.length ≠ 33) ∨
      db.submissions.any (fun other => other.internalId = row.internalId ∨
        adapterHandleHash digest other.handle = adapterHandleHash digest row.handle) then
    .error .constraint
  else .ok { db with submissions := db.submissions ++ [row] }

/-- A handle that was not seen: it is rejected for good, or entered if there is room. -/
def enterSubmission (state : AdapterClockState) (expired : Bool) :
    Except Error (Except Error Unit × AdapterLedger Journal) :=
  let ofAccount := db.submissions.filter fun row => row.account = operation.account
  if expired then do
    let db ← db.write operation.account state
    .ok (.error .adapterExpired, db)
  else do
    checkFresh handle state
    if 65536 ≤ ofAccount.length then .error .adapterRetentionFull
    else if 64 ≤ (ofAccount.filter fun row => row.state = .live).length then
      .error .adapterActiveFull
    else
    let db ← db.write operation.account state
    let db ← db.insertSubmission digest (submissionRow handle operation state)
    let journal ← (recordMutation db.journal operation).mapError JournalError.toError
    .ok (.ok (), { db with journal })

/-- The transaction of `record_adapter_submission`. -/
def recording (sample : AdapterTimeSample) :
    Except Error (Except Error Unit × AdapterLedger Journal) := do
  if !operation.isKvAdapter then .error .adapterIdentityConflict else
  match ← db.lookup digest handle with
  | some row =>
    if sameSubmission row operation then .ok (.ok (), db) else .error .adapterIdentityConflict
  | none =>
    let state ← AdapterClockState.validate (db.clock operation.account) sample
    let checked := AdapterClockState.unseenExpired handle.issuedAt.toNat state
    db.enterSubmission digest recordMutation handle operation checked.1 checked.2

def recordAdapterSubmission (sample : AdapterTimeSample) :
    Except Error Unit × AdapterLedger Journal :=
  transact db (db.recording digest recordMutation handle operation sample)

def pruneBatch : Nat := 128

/-- Rows that are done and whose time is over, the oldest first. -/
def pruneCandidates (now : Nat) : List AdapterSubmission :=
  ((db.submissions.filter fun row => row.account = account ∧ row.internalId = none ∧
      row.state ≠ .live ∧ row.expiresAt.any (· ≤ now)).mergeSort
    fun a b => toLex (a.expiresAt.getD 0, ofBE (adapterHandleHash digest a.handle).bytes) ≤
      toLex (b.expiresAt.getD 0, ofBE (adapterHandleHash digest b.handle).bytes)).take pruneBatch

/-- The clock is written if a row is removed. -/
def pruneClocks (rows : List AdapterSubmission) (state : AdapterClockState) :
    Except Error (AdapterLedger Journal) :=
  if rows.isEmpty then .ok db else db.write account state

def pruneAdapterSubmissions (sample : AdapterTimeSample) :
    Except Error Nat × AdapterLedger Journal :=
  transact db do
    let state ← AdapterClockState.validate (db.clock account) sample
    let now ← sqliteInteger "adapter time" state.validatedTimeFloor
    let rows := db.pruneCandidates digest account now
    let state ← (rows.map (·.issuedAt)).foldlM AdapterClockState.rejectRow state
    let kept := db.submissions.filter fun row => !rows.any fun other =>
      adapterHandleHash digest other.handle = adapterHandleHash digest row.handle
    let db ← db.pruneClocks account rows state
    .ok (.ok rows.length, { db with submissions := kept })

/-- The operator has seen the clock and sets it anew. -/
def reanchorAdapterClock (expected : AdapterClockState) (sample : AdapterTimeSample) :
    Except Error AdapterClockState × AdapterLedger Journal :=
  transact db do
    if db.clock account ≠ some expected then .error .adapterIdentityConflict else
    let state ← AdapterClockState.reanchor (db.clock account) sample
    let db ← db.write account state
    .ok (.ok state, db)

/-! ## What a call does -/

/-- The handle has a row of the account. -/
def Present : Account → SubmissionHandle → Prop :=
  Entered AdapterSubmission.account AdapterSubmission.handle db.submissions

def mark : Nat :=
  AdapterClockState.markOf (db.clock account)

/-- Rows have different hashes. -/
def Distinct : Prop :=
  Keyed (fun row => adapterHandleHash digest row.handle) db.submissions

end

/-- The handle was issued at this time. -/
def issued (handle : SubmissionHandle) : Nat := handle.issuedAt.toNat

/-- What a step does to the rows and the marks. -/
def Effect (db db' : AdapterLedger Journal) : Prop :=
  LedgerEffect AdapterSubmission.account AdapterSubmission.handle (adapterHandleHash digest) issued
    db.submissions db'.submissions db.mark db'.mark

section

variable {digest} {recordMutation} {db db' : AdapterLedger Journal} {account : Account}
  {handle : SubmissionHandle} {operation : MutationOperation} {sample : AdapterTimeSample}
  {state : AdapterClockState}

theorem Effect.of_submissions (hdistinct : db.Distinct digest)
    (hsame : db'.submissions = db.submissions)
    (hmark : ∀ account, db.mark account ≤ db'.mark account) : db.Effect digest db' := by
  unfold Effect
  rw [hsame]
  exact .of_rows hdistinct hmark

theorem Effect.refl (hdistinct : db.Distinct digest) : db.Effect digest db :=
  .of_submissions hdistinct rfl fun _ => le_refl _

theorem write_eq_ok (h : db.write account state = .ok db') :
    ∃ clocks, db' = { db with clocks } ∧
      writeClock "adapter time" (db.refusesClock account state) db.clocks account state =
        .ok clocks := by
  obtain ⟨clocks, hwrite, h⟩ := bind_eq_ok.mp h
  cases h
  exact ⟨clocks, rfl, hwrite⟩

theorem Effect.of_write (hdistinct : db.Distinct digest) (h : db.write account state = .ok db')
    (hmark : db.mark account ≤ state.rejectIssuedBefore) : db.Effect digest db' := by
  obtain ⟨clocks, rfl, hclocks⟩ := write_eq_ok h
  exact .of_submissions hdistinct rfl (marks_le_writeClock hclocks hmark)

variable {row : AdapterSubmission}

theorem insertSubmission_eq_ok (h : db.insertSubmission digest row = .ok db') :
    (∀ other ∈ db.submissions,
        adapterHandleHash digest other.handle ≠ adapterHandleHash digest row.handle) ∧
      db' = { db with submissions := db.submissions ++ [row] } := by
  obtain ⟨_, -, h⟩ := bind_eq_ok.mp h
  obtain ⟨_, -, h⟩ := bind_eq_ok.mp h
  obtain ⟨hguard, h⟩ := ite_error_eq_ok.mp h
  cases h
  refine ⟨fun other hother hhash => hguard ?_, rfl⟩
  refine .inr (.inr (.inr (List.any_eq_true.mpr ⟨other, hother, ?_⟩)))
  simp [hhash]

theorem reanchorAdapterClock_effect {expected : AdapterClockState}
    (hdistinct : db.Distinct digest) :
    db.Effect digest (db.reanchorAdapterClock account expected sample).2 := by
  unfold reanchorAdapterClock transact
  split
  · exact .refl hdistinct
  rename_i committed hcommitted
  obtain ⟨-, h⟩ := ite_error_eq_ok.mp hcommitted
  obtain ⟨state, hstate, h⟩ := bind_eq_ok.mp h
  obtain ⟨after, hwrite, h⟩ := bind_eq_ok.mp h
  cases h
  exact .of_write hdistinct hwrite (AdapterClockState.reanchor_mark hstate).ge

theorem mem_pruneCandidates {now : Nat} (h : row ∈ db.pruneCandidates digest account now) :
    row ∈ db.submissions ∧ row.account = account :=
  (mem_of_mem_take_mergeSort h).imp_right fun hdone => (of_decide_eq_true hdone).1

theorem pruneAdapterSubmissions_effect (hdistinct : db.Distinct digest) :
    db.Effect digest (db.pruneAdapterSubmissions digest account sample).2 := by
  unfold pruneAdapterSubmissions transact
  split
  · exact .refl hdistinct
  rename_i committed hcommitted
  obtain ⟨state, hstate, h⟩ := bind_eq_ok.mp hcommitted
  obtain ⟨now, -, h⟩ := bind_eq_ok.mp h
  obtain ⟨marked, hmarked, h⟩ := bind_eq_ok.mp h
  obtain ⟨clocked, hclocked, h⟩ := bind_eq_ok.mp h
  obtain rfl := Except.ok.inj h
  obtain ⟨hle, hrows⟩ := AdapterClockState.foldlM_rejectRow hmarked
  rw [AdapterClockState.validate_mark hstate] at hle
  rcases ite_eq_ok hclocked with ⟨hempty, hclocked⟩ | ⟨-, hwrite⟩
  · cases hclocked
    refine LedgerEffect.of_remove hdistinct (fun row hrow => (mem_pruneCandidates hrow).1)
      (fun _ => le_refl _) fun row hrow => ?_
    rw [List.isEmpty_iff.mp hempty] at hrow
    cases hrow
  · obtain ⟨clocks, rfl, hclocks⟩ := write_eq_ok hwrite
    refine LedgerEffect.of_remove hdistinct (fun row hrow => (mem_pruneCandidates hrow).1)
      (marks_le_writeClock hclocks hle) fun row hrow => ?_
    obtain rfl := (mem_pruneCandidates hrow).2
    exact lt_marks_writeClock hclocks (hrows row.issuedAt (List.mem_map_of_mem hrow))

/-! ## Answers -/

theorem lookup_errors (db : AdapterLedger Journal) (handle : SubmissionHandle) :
    Ensures NotExpired (· = db.submissions.find? fun row =>
      adapterHandleHash digest row.handle = adapterHandleHash digest handle)
      (db.lookup digest handle) := by
  unfold lookup
  split
  · rename_i hnone
    exact hnone.symm
  · rename_i hsome
    split
    · exact hsome.symm
    · exact ⟨nofun, nofun⟩

theorem lookup_of_mem (hdistinct : db.Distinct digest) (hrow : row ∈ db.submissions) :
    db.lookup digest row.handle = .ok (some row) := by
  have hfind : db.submissions.find? (fun other =>
      adapterHandleHash digest other.handle = adapterHandleHash digest row.handle) = some row :=
    hdistinct.find?_eq_some.mpr ⟨hrow, rfl⟩
  unfold lookup
  rw [hfind]
  exact if_pos rfl

theorem insertSubmission_errors (db : AdapterLedger Journal) (row : AdapterSubmission) :
    Ensures NotExpired (fun _ => True) (db.insertSubmission digest row) := by
  refine (sqliteInteger_errors _ _).bind fun _ _ => (sqliteInteger_errors _ _).bind fun _ _ => ?_
  exact .guard (fun _ => ⟨nofun, nofun⟩) fun _ => trivial

theorem checkFresh_errors (handle : SubmissionHandle) (state : AdapterClockState) :
    Ensures NotExpired (fun _ => True) (checkFresh handle state) :=
  limits_errors ⟨nofun, nofun⟩ ⟨nofun, nofun⟩

/-- The handle is not there and is never taken again. -/
def SpentHandle (db : AdapterLedger Journal) (account : Account) (handle : SubmissionHandle) :
    Prop :=
  Spent Present mark issued db account handle

/-- What a call that was asked about a handle leaves: after the answer that it is expired the handle
    is spent. -/
def Answered (digest : Digest) (db : AdapterLedger Journal) (account : Account)
    (handle : SubmissionHandle) (answer : Except Error Unit) (after : AdapterLedger Journal) :
    Prop :=
  db.Effect digest after ∧
    (answer = .error .adapterExpired → after.SpentHandle account handle)

section

variable (hdistinct : db.Distinct digest)
include hdistinct

theorem Answered.refused {error : Error}
    (hne : error ≠ .adapterExpired) : Answered digest db account handle (.error error) db :=
  ⟨.refl hdistinct, fun h => absurd (Except.error.inj h) hne⟩

theorem Answered.same :
    Answered digest db account handle (.ok ()) db :=
  ⟨.refl hdistinct, nofun⟩

/-- The clock of an unseen handle was written. -/
theorem Answered.of_write {answer : Except Error Unit}
    (habsent : ¬ db.Present account handle) (hwrite : db.write account state = .ok db')
    (hmark : db.mark account ≤ state.rejectIssuedBefore)
    (hanswer : answer = .error .adapterExpired → issued handle < state.rejectIssuedBefore) :
    Answered digest db account handle answer db' := by
  refine ⟨.of_write hdistinct hwrite hmark, fun hexpired => ?_⟩
  obtain ⟨clocks, rfl, hclocks⟩ := write_eq_ok hwrite
  exact ⟨habsent, lt_marks_writeClock hclocks (hanswer hexpired)⟩

theorem checkAdapterAdmission_answered :
    Answered digest db account handle (db.checkAdapterAdmission digest account handle sample).1
      (db.checkAdapterAdmission digest account handle sample).2 := by
  refine transact_ensures (Ensures.bind ((lookup_errors db handle).mono
    (fun _ hne => .refused hdistinct hne.1) fun _ => id) fun existing hlookup => ?_)
  cases existing with
  | some row => exact .guard (fun _ => .refused hdistinct nofun) fun _ => .same hdistinct
  | none =>
    have habsent : ¬ db.Present account handle := not_entered_of_find? hlookup.symm account
    refine .guard (fun hmark => ⟨.refl hdistinct, fun _ => ⟨habsent, hmark⟩⟩) fun _ => ?_
    refine Ensures.bind ((AdapterClockState.validate_errors _ _).self.mono ?_ fun _ => id)
      fun state hstate => ?_
    · rintro _ rfl
      exact .refused hdistinct nofun
    have hle := AdapterClockState.mark_le_unseenExpired hstate handle.issuedAt.toNat
    have hexpired := AdapterClockState.unseenExpired_iff handle.issuedAt.toNat state
    generalize AdapterClockState.unseenExpired handle.issuedAt.toNat state = checked
      at hle hexpired ⊢
    refine Ensures.bind ((writeClock_errors ..).self.mono
      (fun _ hne => .refused hdistinct hne.1) fun _ => id) fun after hwrite => ?_
    refine .of_write hdistinct habsent hwrite hle fun hanswer => hexpired.mp ?_
    by_contra hfresh
    rw [if_neg hfresh] at hanswer
    exact ((checkFresh_errors _ _).of_error hanswer).1 rfl

/-- Either the handle is expired and the rejection stays, or it was issued at the mark or later and
    is entered. -/
theorem enterSubmission_answered {expired : Bool}
    (habsent : ¬ db.Present operation.account handle)
    (hmark : db.mark operation.account ≤ state.rejectIssuedBefore)
    (hexpired : expired = true ↔ handle.issuedAt.toNat < state.rejectIssuedBefore) :
    Ensures NotExpired
      (fun done => Answered digest db operation.account handle done.1 done.2)
      (db.enterSubmission digest recordMutation handle operation state expired) := by
  unfold enterSubmission
  split
  · rename_i htrue
    refine Ensures.bind (writeClock_errors ..).self fun after hwrite => ?_
    exact .of_write hdistinct habsent hwrite hmark fun _ => hexpired.mp htrue
  · rename_i hfalse
    refine (checkFresh_errors _ _).bind fun _ _ => ?_
    refine .guard (fun _ => ⟨nofun, nofun⟩) fun _ => .guard (fun _ => ⟨nofun, nofun⟩) fun _ => ?_
    refine Ensures.bind (writeClock_errors ..).self fun clocked hwrite => ?_
    refine Ensures.bind (insertSubmission_errors _ _).self fun entered hinsert => ?_
    have hjournal : Ensures NotExpired (fun _ => True)
        ((recordMutation entered.journal operation).mapError JournalError.toError) := by
      cases recordMutation entered.journal operation with
      | ok journal => trivial
      | error error => cases error <;> exact ⟨nofun, nofun⟩
    refine hjournal.bind fun journal _ => ⟨?_, nofun⟩
    obtain ⟨clocks, rfl, hclocks⟩ := write_eq_ok hwrite
    obtain ⟨hfresh, rfl⟩ := insertSubmission_eq_ok hinsert
    exact LedgerEffect.of_insert hdistinct hfresh (marks_le_writeClock hclocks hmark)
      (hmark.trans (Nat.not_lt.mp fun hlt => hfalse (hexpired.mpr hlt)))

theorem recordAdapterSubmission_answered :
    Answered digest db operation.account handle
      (db.recordAdapterSubmission digest recordMutation handle operation sample).1
      (db.recordAdapterSubmission digest recordMutation handle operation sample).2 := by
  refine transact_ensures (.guard (fun _ => .refused hdistinct nofun) fun _ => ?_)
  refine Ensures.bind ((lookup_errors db handle).mono
    (fun _ hne => .refused hdistinct hne.1) fun _ => id) fun existing hlookup => ?_
  cases existing with
  | some row =>
    dsimp only
    split
    · exact .same hdistinct
    · exact .refused hdistinct nofun
  | none =>
    refine Ensures.bind ((AdapterClockState.validate_errors _ _).self.mono ?_ fun _ => id)
      fun state hstate => ?_
    · rintro _ rfl
      exact .refused hdistinct nofun
    have hle := AdapterClockState.mark_le_unseenExpired hstate handle.issuedAt.toNat
    have hexpired := AdapterClockState.unseenExpired_iff handle.issuedAt.toNat state
    generalize AdapterClockState.unseenExpired handle.issuedAt.toNat state = checked
      at hle hexpired ⊢
    exact (enterSubmission_answered hdistinct
      (not_entered_of_find? hlookup.symm _) hle hexpired).mono
      (fun _ hne => .refused hdistinct hne.1) fun _ => id

/-- While a handle has a row, the same submission is accepted, any other is refused, and nothing
    changes. -/
theorem recordAdapterSubmission_of_mem
    (hrow : row ∈ db.submissions) (operation : MutationOperation) (sample : AdapterTimeSample) :
    (db.recordAdapterSubmission digest recordMutation row.handle operation sample).2 = db ∧
      ((db.recordAdapterSubmission digest recordMutation row.handle operation sample).1 = .ok () →
        sameSubmission row operation = true) := by
  unfold recordAdapterSubmission recording
  rw [lookup_of_mem hdistinct hrow]
  split
  · exact ⟨rfl, nofun⟩
  · rw [ok_bind]
    dsimp only
    split
    · rename_i hsame
      exact ⟨rfl, fun _ => hsame⟩
    · exact ⟨rfl, nofun⟩

end

end

/-! ## Runs -/

/-- One step: a call; a clock that is looked at; or progress of the rows and of the journal, which
    keeps what a row was entered with. -/
inductive Step : AdapterLedger Journal → AdapterLedger Journal → Prop where
  | check (db : AdapterLedger Journal) (account : Account) (handle : SubmissionHandle)
      (sample : AdapterTimeSample) :
      Step db (db.checkAdapterAdmission digest account handle sample).2
  | record (db : AdapterLedger Journal) (handle : SubmissionHandle) (operation : MutationOperation)
      (sample : AdapterTimeSample) :
      Step db (db.recordAdapterSubmission digest recordMutation handle operation sample).2
  | prune (db : AdapterLedger Journal) (account : Account) (sample : AdapterTimeSample) :
      Step db (db.pruneAdapterSubmissions digest account sample).2
  | reanchor (db : AdapterLedger Journal) (account : Account) (expected : AdapterClockState)
      (sample : AdapterTimeSample) : Step db (db.reanchorAdapterClock account expected sample).2
  | tick {db db' : AdapterLedger Journal} {account : Account} {sample : AdapterTimeSample}
      {state : AdapterClockState}
      (hstate : AdapterClockState.validate (db.clock account) sample = .ok state)
      (hwrite : db.write account state = .ok db') : Step db db'
  | progress (db : AdapterLedger Journal) (update : AdapterSubmission → AdapterSubmission)
      (hkeeps : ∀ row, (update row).handle = row.handle ∧ (update row).hostId = row.hostId ∧
        (update row).userId = row.userId ∧ (update row).teamId = row.teamId ∧
        (update row).inputHash = row.inputHash)
      (hosts : List (List UInt8)) (journal : Journal) :
      Step db { db with hosts, submissions := db.submissions.map update, journal }

variable {digest} {recordMutation}

theorem Step.effect {db db' : AdapterLedger Journal} (h : Step digest recordMutation db db')
    (hdistinct : db.Distinct digest) : db.Effect digest db' := by
  cases h with
  | check account handle sample => exact (checkAdapterAdmission_answered hdistinct).1
  | record handle operation sample => exact (recordAdapterSubmission_answered hdistinct).1
  | prune account sample => exact pruneAdapterSubmissions_effect hdistinct
  | reanchor account expected sample => exact reanchorAdapterClock_effect hdistinct
  | tick hstate hwrite =>
    exact .of_write hdistinct hwrite (AdapterClockState.validate_mark hstate).ge
  | progress update hkeeps hosts journal =>
    refine LedgerEffect.of_map hdistinct update (fun row => ?_) fun _ => le_refl _
    obtain ⟨hhandle, hhost, huser, -⟩ := hkeeps row
    exact ⟨Prod.ext hhost huser, hhandle⟩

/-- The ledger of submissions forgets nothing that matters. -/
theorem watermarked : Watermarked (@Step Journal digest recordMutation)
    (Distinct digest) Present mark issued where
  keeps hstep hinv := (hstep.effect hinv).keeps
  mark_le hstep hinv := (hstep.effect hinv).mark_le
  removed hstep hinv := (hstep.effect hinv).removed
  inserted hstep hinv := (hstep.effect hinv).inserted

end AdapterLedger

end Foks.ClientDb
