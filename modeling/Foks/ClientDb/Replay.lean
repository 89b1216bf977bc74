/-
  The replay ledgers take a handle at most once.

  Both ledgers of the client's database are watermarked. So for submissions through an adapter and
  for uploads alike, over every run and whatever the clocks say: a handle that was there and was
  removed does not come back, nor does one that was answered with expired; and while its row is
  there, the row answers (`replay_ledgers_at_most_once`).
-/
import Foks.ClientDb.UploadLedger

namespace Foks.ClientDb

open Foks.Lib Foks.Crypto Relation

/-- No row of the handle is there, now or after any further steps. -/
def NeverAgain {σ α κ : Type} (step : σ → σ → Prop) (present : σ → α → κ → Prop) (s : σ) (a : α)
    (k : κ) : Prop :=
  ∀ later, ReflTransGen step s later → ¬ present later a k

namespace AdapterLedger

variable {Journal : Type} (digest : Digest)
  (recordMutation : Journal → MutationOperation → Except JournalError Journal)

/-- What the ledger of submissions promises for a handle of an account. -/
structure AtMostOnce (db : AdapterLedger Journal) (account : Account) (handle : SubmissionHandle) :
    Prop where
  /-- Once it is removed it does not come back. -/
  removed : ∀ mid, ReflTransGen (Step digest recordMutation) db mid → db.Present account handle →
    ¬ mid.Present account handle →
    NeverAgain (Step digest recordMutation) Present mid account handle
  /-- Once admission has answered that it is expired it does not come. -/
  refused : ∀ sample,
    (db.checkAdapterAdmission digest account handle sample).1 = .error .adapterExpired →
    NeverAgain (Step digest recordMutation) Present
      (db.checkAdapterAdmission digest account handle sample).2 account handle
  /-- Once a submission was answered with expired it does not come. -/
  expired : ∀ operation sample, operation.account = account →
    (db.recordAdapterSubmission digest recordMutation handle operation sample).1 =
      .error .adapterExpired →
    NeverAgain (Step digest recordMutation) Present
      (db.recordAdapterSubmission digest recordMutation handle operation sample).2 account handle
  /-- While its row is there, nothing is entered, and only the same submission is accepted. -/
  replayed : ∀ row ∈ db.submissions, row.handle = handle → ∀ operation sample,
    (db.recordAdapterSubmission digest recordMutation handle operation sample).2 = db ∧
      ((db.recordAdapterSubmission digest recordMutation handle operation sample).1 = .ok () →
        sameSubmission row operation = true)

variable {digest} {recordMutation} {db : AdapterLedger Journal}

theorem SpentHandle.neverAgain {account : Account} {handle : SubmissionHandle}
    (h : db.SpentHandle account handle) (hdistinct : db.Distinct digest) :
    NeverAgain (Step digest recordMutation) Present db account handle := by
  intro later hrun
  exact (watermarked.spent_run hrun hdistinct h).1

theorem atMostOnce (hdistinct : db.Distinct digest) (account : Account)
    (handle : SubmissionHandle) :
    db.AtMostOnce digest recordMutation account handle where
  removed := by
    intro mid hrun hpresent habsent later hrest
    exact watermarked.not_present_again hrun hdistinct hpresent habsent hrest
  refused := by
    intro sample hexpired
    obtain ⟨heffect, hspent⟩ := checkAdapterAdmission_answered hdistinct
    exact (hspent hexpired).neverAgain heffect.keeps
  expired := by
    rintro operation sample rfl hexpired
    obtain ⟨heffect, hspent⟩ := recordAdapterSubmission_answered hdistinct
    exact (hspent hexpired).neverAgain heffect.keeps
  replayed := by
    intro row hrow hhandle operation sample
    rw [← hhandle]
    exact recordAdapterSubmission_of_mem hdistinct hrow operation sample

end AdapterLedger

namespace UploadLedger

variable (digest : Digest)

/-- What the ledger of uploads promises for a handle of an account. -/
structure AtMostOnce (db : UploadLedger) (account : Account) (handle : UploadHandle) : Prop where
  /-- Once it is removed it does not come back. -/
  removed : ∀ mid, ReflTransGen (Step digest) db mid → db.Present account handle →
    ¬ mid.Present account handle → NeverAgain (Step digest) Present mid account handle
  /-- Once an upload was answered with expired it does not come. -/
  expired : ∀ candidateId scope binding sample, scope.account = account →
    (db.registerUploadIntent digest handle candidateId scope binding sample).1 =
      .error .uploadExpired →
    NeverAgain (Step digest) Present
      (db.registerUploadIntent digest handle candidateId scope binding sample).2 account handle
  /-- While its receipt is there, nothing is entered, and only the same upload is accepted. Receipts
      from before there were handles have no intent to compare. -/
  replayed : ∀ row ∈ db.receipts, row.handle = handle → ∀ candidateId scope binding sample,
    (db.registerUploadIntent digest handle candidateId scope binding sample).2 = db ∧
      ((db.registerUploadIntent digest handle candidateId scope binding sample).1.isOk →
        scope = row.scope ∧ (handle.issuedAt.isSome → row.intent = some binding))

variable {digest}

theorem SpentHandle.neverAgain {db : UploadLedger} {account : Account} {handle : UploadHandle}
    (h : db.SpentHandle account handle) (hdistinct : db.Distinct digest) :
    NeverAgain (Step digest) Present db account handle := by
  intro later hrun
  exact (watermarked.spent_run hrun hdistinct h).1

theorem atMostOnce {db : UploadLedger} (hdistinct : db.Distinct digest) (account : Account)
    (handle : UploadHandle) : db.AtMostOnce digest account handle where
  removed := by
    intro mid hrun hpresent habsent later hrest
    exact watermarked.not_present_again hrun hdistinct hpresent habsent hrest
  expired := by
    rintro candidateId scope binding sample rfl hexpired
    obtain ⟨heffect, hspent⟩ := registerUploadIntent_answered hdistinct
    exact (hspent hexpired).neverAgain heffect.keeps
  replayed := by
    intro row hrow hhandle candidateId scope binding sample
    rw [← hhandle]
    exact registerUploadIntent_of_mem hdistinct hrow candidateId scope binding sample

end UploadLedger

/-- In a database whose rows have different hashes, which every step keeps, each handle of each
    account is taken at most once by its ledger. -/
theorem replay_ledgers_at_most_once {Journal : Type} {digest : Digest}
    {recordMutation : Journal → MutationOperation → Except JournalError Journal}
    {adapter : AdapterLedger Journal} {uploads : UploadLedger}
    (hadapter : adapter.Distinct digest) (huploads : uploads.Distinct digest) (account : Account)
    (submission : SubmissionHandle) (upload : UploadHandle) :
    adapter.AtMostOnce digest recordMutation account submission ∧
      uploads.AtMostOnce digest account upload :=
  ⟨AdapterLedger.atMostOnce hadapter account submission,
    UploadLedger.atMostOnce huploads account upload⟩

namespace ReplaySample

def digest : Digest := fun _ => .replicate 32 0

def recordMutation (journal : List MutationOperation) (operation : MutationOperation) :
    Except JournalError (List MutationOperation) :=
  .ok (operation :: journal)

def account : Account := (List.replicate 33 1, List.replicate 33 2)

def sample (seconds : Nat) : AdapterTimeSample := ⟨.replicate 16 0, none, seconds, seconds⟩

/-! A submission at 1000 that is done at once, and its row after the month it is kept. -/

def submission : SubmissionHandle := ⟨1000, .replicate 16 7⟩

def operation (requestHash : Hash) : MutationOperation where
  isKvAdapter := true
  operationId := .replicate 16 9
  hostId := account.1
  scopeId := account.2
  subjectId := []
  requestHash := requestHash

def noSubmission : AdapterLedger (List MutationOperation) := ⟨[account.1], [], [], []⟩

def submitted : AdapterLedger (List MutationOperation) :=
  (noSubmission.recordAdapterSubmission digest recordMutation submission
    (operation (.replicate 32 5)) (sample 1000)).2

def finish (row : AdapterSubmission) : AdapterSubmission :=
  { row with
    internalId := none, state := .committed, terminalAt := some 1000,
    expiresAt := some (1000 + terminalRetentionSeconds) }

def finished : AdapterLedger (List MutationOperation) :=
  { submitted with submissions := submitted.submissions.map finish }

def pruned : AdapterLedger (List MutationOperation) :=
  (finished.pruneAdapterSubmissions digest account (sample (1000 + terminalRetentionSeconds))).2

/-! An upload of the same account, cancelled at once. -/

def upload : UploadHandle := .v1 (.replicate 16 3) 1000 (.replicate 16 8)

def scope : UploadScope := ⟨account.1, account.2, account.2⟩

def noUpload : UploadLedger := ⟨.replicate 16 3, ⟨1024, 4, 4, 4096⟩, [], []⟩

def registered : UploadLedger :=
  (noUpload.registerUploadIntent digest upload (.replicate 16 4) scope (.replicate 32 6)
    (sample 1000)).2

def cancel (row : UploadReceipt) : UploadReceipt :=
  { row with
    state := .cancelled, expiresAt := some (1000 + terminalRetentionSeconds), cleanupPhase := 4 }

def cancelled : UploadLedger := { registered with receipts := registered.receipts.map cancel }

def retired : UploadLedger :=
  (cancelled.pruneUploadReceipts digest account (sample (1000 + terminalRetentionSeconds)) 128).2

theorem ledgers_distinct : submitted.Distinct digest ∧ registered.Distinct digest := by
  unfold AdapterLedger.Distinct UploadLedger.Distinct Keyed
  decide +kernel

theorem handles_present :
    submitted.Present account submission ∧ registered.Present account upload := by
  unfold AdapterLedger.Present UploadLedger.Present Entered
  decide +kernel

theorem handles_removed : pruned.submissions = [] ∧ retired.receipts = [] := by decide +kernel

theorem submitted_run :
    ReflTransGen (AdapterLedger.Step digest recordMutation) submitted pruned := by
  have hfinish : AdapterLedger.Step digest recordMutation submitted finished :=
    .progress submitted finish (fun _ => ⟨rfl, rfl, rfl, rfl, rfl⟩) submitted.hosts
      submitted.journal
  exact (ReflTransGen.single hfinish).tail (.prune finished account _)

theorem registered_run : ReflTransGen (UploadLedger.Step digest) registered retired := by
  have hcancel : UploadLedger.Step digest registered cancelled :=
    .progress registered cancel (fun _ => ⟨rfl, rfl, rfl⟩) registered.limits
  exact (ReflTransGen.single hcancel).tail (.prune cancelled account _ 128)

/-- Both handles were entered and removed, and do not come back. While the submission was there,
    another one under its handle was refused. -/
theorem handles_not_taken_again :
    (submitted.Present account submission ∧
      NeverAgain (AdapterLedger.Step digest recordMutation) AdapterLedger.Present pruned account
        submission ∧
      (submitted.recordAdapterSubmission digest recordMutation submission
        (operation (.replicate 32 6)) (sample 1000)).1 ≠ .ok ()) ∧
    registered.Present account upload ∧
      NeverAgain (UploadLedger.Step digest) UploadLedger.Present retired account upload := by
  obtain ⟨hadapter, huploads⟩ := replay_ledgers_at_most_once ledgers_distinct.1 ledgers_distinct.2
    account submission upload
  obtain ⟨hsubmitted, hregistered⟩ := handles_present
  refine ⟨⟨hsubmitted, ?_, fun hok => ?_⟩, hregistered, ?_⟩
  · refine hadapter.removed pruned submitted_run hsubmitted ?_
    rintro ⟨row, hrow, -⟩
    rw [handles_removed.1] at hrow
    cases hrow
  · obtain ⟨row, hrow, -, hhandle⟩ := hsubmitted
    have hsame := (hadapter.replayed row hrow hhandle _ _).2 hok
    have hother : ∀ row ∈ submitted.submissions,
        AdapterLedger.sameSubmission row (operation (.replicate 32 6)) = false := by
      decide +kernel
    rw [hother row hrow] at hsame
    cases hsame
  · refine huploads.removed retired registered_run hregistered ?_
    rintro ⟨row, hrow, -⟩
    rw [handles_removed.2] at hrow
    cases hrow

end ReplaySample

end Foks.ClientDb
