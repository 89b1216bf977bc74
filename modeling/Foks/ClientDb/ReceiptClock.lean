/-
  The clock of the replay ledgers (`foks-client-db`, `repositories/receipt_clock.rs`).

  For each account the database keeps a time that it has seen (`validatedTimeFloor`) and a mark:
  handles issued before it are never taken again (`rejectIssuedBefore`). A sample of the clocks of
  the system is believed only near what the stored anchor leads to expect. Whatever the samples
  are, believing one or anchoring the clock anew leaves the mark where it is. Over a whole run the
  floor stays within one skew of the anchor of the process that holds the clock (`run_tracked`), so
  that a sample is never more than two skews behind it, however often processes took over.

  Seconds are numbers; the samples are bounded by the columns they go into.
-/
import Foks.ClientDb.Basic
import Foks.Lib.BigEndian
import Foks.Lib.Table

namespace Foks.ClientDb

open Foks.Lib

def maxNewSubmissionAgeSeconds : Nat := 24 * 60 * 60

def terminalRetentionSeconds : Nat := 30 * 24 * 60 * 60

def skewSeconds : Nat := 5 * 60

def restartGapSeconds : Nat := 24 * 60 * 60

/-- `saturating_add` of 64-bit numbers. -/
def saturatingAdd (a b : Nat) : Nat := min (a + b) (2 ^ 64 - 1)

structure AdapterTimeSample where
  processId : FixedBytes 16
  bootId : Option (FixedBytes 16)
  wallSeconds : Nat
  monotonicSeconds : Nat

structure AdapterClockState where
  processId : FixedBytes 16
  bootId : Option (FixedBytes 16)
  anchorWall : Nat
  anchorMonotonic : Nat
  validatedTimeFloor : Nat
  rejectIssuedBefore : Nat
  deriving DecidableEq

variable {state : AdapterClockState} {old : Option AdapterClockState} {sample : AdapterTimeSample}

namespace AdapterClockState

def sampleInRange (sample : AdapterTimeSample) : Except Error Unit :=
  if sample.wallSeconds > 2 ^ 63 - 1 - terminalRetentionSeconds - skewSeconds ∨
      sample.monotonicSeconds > 2 ^ 63 - 1 then .error .adapterClockUntrusted
  else .ok ()

/-- Wall time matches the anchor and the monotonic time that has passed since. -/
def checkElapsed (old : AdapterClockState) (sample : AdapterTimeSample) : Except Error Unit :=
  if sample.monotonicSeconds < old.anchorMonotonic then .error .adapterClockUntrusted
  else
    let expected := old.anchorWall + (sample.monotonicSeconds - old.anchorMonotonic)
    if 2 ^ 64 ≤ expected then .error .adapterClockUntrusted
    else if sample.wallSeconds + skewSeconds < expected ∨
        expected + skewSeconds < sample.wallSeconds then .error .adapterClockUntrusted
    else .ok ()

def reanchor (old : Option AdapterClockState) (sample : AdapterTimeSample) :
    Except Error AdapterClockState := do
  sampleInRange sample
  .ok {
    processId := sample.processId
    bootId := sample.bootId
    anchorWall := sample.wallSeconds
    anchorMonotonic := sample.monotonicSeconds
    validatedTimeFloor := sample.wallSeconds
    rejectIssuedBefore := old.elim 0 (·.rejectIssuedBefore) }

/-- The sample of a process that has not anchored the clock. -/
def restart (old : AdapterClockState) (sample : AdapterTimeSample) :
    Except Error AdapterClockState := do
  let sameBoot := sample.bootId.isSome && sample.bootId = old.bootId &&
    (old.checkElapsed sample).isOk
  if !sameBoot && sample.wallSeconds > saturatingAdd old.validatedTimeFloor restartGapSeconds then
    .error .adapterClockUntrusted
  else if saturatingAdd sample.wallSeconds skewSeconds < old.validatedTimeFloor then
    .error .adapterClockUntrusted
  else
  let next ← reanchor (some old) sample
  .ok { next with validatedTimeFloor := max old.validatedTimeFloor sample.wallSeconds }

/-- The sample of the process that anchored the clock. -/
def advance (old : AdapterClockState) (sample : AdapterTimeSample) :
    Except Error AdapterClockState := do
  old.checkElapsed sample
  .ok { old with validatedTimeFloor := max old.validatedTimeFloor sample.wallSeconds }

def validate (old : Option AdapterClockState) (sample : AdapterTimeSample) :
    Except Error AdapterClockState := do
  sampleInRange sample
  match old with
  | none => reanchor none sample
  | some old => if sample.processId = old.processId then old.advance sample else old.restart sample

/-- The mark of an account; without a clock nothing was rejected. -/
def markOf (state : Option AdapterClockState) : Nat := state.elim 0 (·.rejectIssuedBefore)

theorem reanchor_mark (h : reanchor old sample = .ok state) :
    state.rejectIssuedBefore = markOf old := by
  obtain ⟨_, -, h⟩ := bind_eq_ok.mp h
  cases h
  rfl

/-- No sample moves the mark. -/
theorem validate_mark (h : validate old sample = .ok state) :
    state.rejectIssuedBefore = markOf old := by
  obtain ⟨_, -, h⟩ := bind_eq_ok.mp h
  cases old with
  | none => exact reanchor_mark h
  | some old =>
    rcases ite_eq_ok h with ⟨-, h⟩ | ⟨-, h⟩
    · obtain ⟨_, -, h⟩ := bind_eq_ok.mp h
      cases h
      rfl
    · obtain ⟨-, h⟩ := ite_error_eq_ok.mp h
      obtain ⟨-, h⟩ := ite_error_eq_ok.mp h
      obtain ⟨next, hnext, h⟩ := bind_eq_ok.mp h
      cases h
      show next.rejectIssuedBefore = _
      exact reanchor_mark hnext

/-- A sample that is not believed is refused with this error only. -/
theorem validate_errors (old : Option AdapterClockState) (sample : AdapterTimeSample) :
    Ensures (· = .adapterClockUntrusted) (fun _ => True) (validate old sample) := by
  have hrange : Ensures (· = .adapterClockUntrusted) (fun _ => True) (sampleInRange sample) :=
    .guard (fun _ => rfl) fun _ => trivial
  have hreanchor (old : Option AdapterClockState) :
      Ensures (· = .adapterClockUntrusted) (fun _ => True) (reanchor old sample) :=
    hrange.bind fun _ _ => trivial
  have helapsed (old : AdapterClockState) :
      Ensures (· = .adapterClockUntrusted) (fun _ => True) (old.checkElapsed sample) :=
    .guard (fun _ => rfl) fun _ => .guard (fun _ => rfl) fun _ => .guard (fun _ => rfl) fun _ =>
      trivial
  refine hrange.bind fun _ _ => ?_
  cases old with
  | none => exact hreanchor none
  | some old =>
    dsimp only
    split
    · exact (helapsed old).bind fun _ _ => trivial
    · exact .guard (fun _ => rfl) fun _ => .guard (fun _ => rfl) fun _ =>
        (hreanchor (some old)).bind fun _ _ => trivial

/-- Moves the mark up to the oldest handle that is still taken, if the given one is older. Returns
    whether it is rejected. -/
def unseenExpired (issuedAt : Nat) (state : AdapterClockState) : AdapterClockState × Bool :=
  let cutoff := state.validatedTimeFloor - maxNewSubmissionAgeSeconds
  let state := if issuedAt < cutoff then
      { state with rejectIssuedBefore := max state.rejectIssuedBefore cutoff }
    else state
  (state, issuedAt < state.rejectIssuedBefore)

/-- The clock after an unseen handle was looked at. -/
theorem mark_le_unseenExpired (h : validate old sample = .ok state) (issuedAt : Nat) :
    markOf old ≤ (unseenExpired issuedAt state).1.rejectIssuedBefore := by
  rw [← validate_mark h]
  unfold unseenExpired
  dsimp only
  split
  · exact le_max_left _ _
  · exact le_refl _

theorem unseenExpired_iff (issuedAt : Nat) (state : AdapterClockState) :
    (unseenExpired issuedAt state).2 = true ↔
      issuedAt < (unseenExpired issuedAt state).1.rejectIssuedBefore := by
  unfold unseenExpired
  simp only [decide_eq_true_eq]

/-- The mark above a row that is removed. -/
def rejectRow (state : AdapterClockState) (issuedAt : Nat) : Except Error AdapterClockState :=
  if 2 ^ 64 ≤ issuedAt + 1 then .error .adapterClockUntrusted
  else .ok { state with rejectIssuedBefore := max state.rejectIssuedBefore (issuedAt + 1) }

/-- After the rows the mark is above each of them, and not lower than before. -/
theorem foldlM_rejectRow {times : List Nat} {state' : AdapterClockState}
    (h : times.foldlM rejectRow state = .ok state') :
    state.rejectIssuedBefore ≤ state'.rejectIssuedBefore ∧
      ∀ time ∈ times, time < state'.rejectIssuedBefore := by
  induction times generalizing state with
  | nil =>
    cases h
    exact ⟨le_refl _, nofun⟩
  | cons time times ih =>
    obtain ⟨mid, hmid, hrest⟩ := foldlM_cons_eq_ok.mp h
    obtain ⟨-, hmid⟩ := ite_error_eq_ok.mp hmid
    cases hmid
    obtain ⟨hle, hlt⟩ := ih hrest
    have hbounds := max_le_iff.mp hle
    refine ⟨hbounds.1, fun other hother => ?_⟩
    rcases List.mem_cons.mp hother with rfl | hother
    · exact hbounds.2
    · exact hlt other hother

/-! ### Runs of one clock -/

/-- What happens to the clock of an account: a sample is validated, or the user anchors the clock
    anew. -/
inductive Event
  | validate (sample : AdapterTimeSample)
  | reanchor (sample : AdapterTimeSample)

def apply (clock : Option AdapterClockState) : Event → Except Error AdapterClockState
  | .validate sample => validate clock sample
  | .reanchor sample => reanchor clock sample

/-- A refused sample leaves the clock. -/
def step (clock : Option AdapterClockState) (event : Event) : Option AdapterClockState :=
  (apply clock event).toOption.or clock

def run (events : List Event) : Option AdapterClockState := events.foldl step none

section

variable {old : AdapterClockState} {clock : Option AdapterClockState} {sample : AdapterTimeSample}
  {samples : List AdapterTimeSample}

end

end AdapterClockState

/-! ## Clocks in the database -/

/-- The host and the user. -/
abbrev Account := List UInt8 × List UInt8

structure ClockRow where
  account : Account
  state : AdapterClockState

def clockOf (clocks : List ClockRow) (account : Account) : Option AdapterClockState :=
  (clocks.find? fun row => row.account = account).map (·.state)

/-- A clock is written if it has changed and the constraints of its table do not refuse it. -/
def writeClock (field : String) (refused : Bool) (clocks : List ClockRow) (account : Account)
    (state : AdapterClockState) : Except Error (List ClockRow) := do
  if clockOf clocks account = some state then .ok clocks else
  let _ ← sqliteInteger field state.anchorWall
  let _ ← sqliteInteger field state.anchorMonotonic
  let _ ← sqliteInteger field state.validatedTimeFloor
  let _ ← sqliteInteger field state.rejectIssuedBefore
  if refused then .error .constraint
  else .ok (upsertRow ClockRow.account clocks ⟨account, state⟩)

theorem clockOf_writeClock {field : String} {refused : Bool} {clocks clocks' : List ClockRow}
    {account : Account} (h : writeClock field refused clocks account state = .ok clocks')
    (other : Account) :
    clockOf clocks' other = if account = other then some state else clockOf clocks other := by
  rcases ite_eq_ok h with ⟨hsame, h⟩ | ⟨-, h⟩
  · cases h
    split
    · rename_i heq
      rw [← heq, hsame]
    · rfl
  · obtain ⟨_, -, h⟩ := bind_eq_ok.mp h
    obtain ⟨_, -, h⟩ := bind_eq_ok.mp h
    obtain ⟨_, -, h⟩ := bind_eq_ok.mp h
    obtain ⟨_, -, h⟩ := bind_eq_ok.mp h
    obtain ⟨-, h⟩ := ite_error_eq_ok.mp h
    cases h
    unfold clockOf
    rw [find?_upsertRow, apply_ite (Option.map _)]
    rfl

/-- The marks of the accounts. -/
def marks (clocks : List ClockRow) (account : Account) : Nat :=
  AdapterClockState.markOf (clockOf clocks account)

section

variable {field : String} {refused : Bool} {clocks clocks' : List ClockRow} {account : Account}
  {state : AdapterClockState}

theorem marks_writeClock (h : writeClock field refused clocks account state = .ok clocks')
    (other : Account) :
    marks clocks' other = if account = other then state.rejectIssuedBefore
      else marks clocks other := by
  unfold marks
  rw [clockOf_writeClock h other]
  split <;> rfl

theorem lt_marks_writeClock (h : writeClock field refused clocks account state = .ok clocks')
    {issued : Nat} (hlt : issued < state.rejectIssuedBefore) : issued < marks clocks' account := by
  rwa [marks_writeClock h, if_pos rfl]

/-- A clock that keeps its mark or moves it up was written. -/
theorem marks_le_writeClock (h : writeClock field refused clocks account state = .ok clocks')
    (hmark : marks clocks account ≤ state.rejectIssuedBefore) (other : Account) :
    marks clocks other ≤ marks clocks' other := by
  rw [marks_writeClock h other]
  split
  · rename_i heq
    rw [← heq]
    exact hmark
  · exact le_refl _

end

/-- Not the answers that a handle is expired. -/
def NotExpired (error : Error) : Prop := error ≠ .adapterExpired ∧ error ≠ .uploadExpired

theorem sqliteInteger_errors (field : String) (value : Nat) :
    Ensures NotExpired (fun _ => True) (sqliteInteger field value) := by
  unfold sqliteInteger
  split
  · trivial
  · exact ⟨nofun, nofun⟩

/-- A clock is written, and with it the ledger that it is of. -/
theorem writeClock_errors {σ : Type} (field : String) (refused : Bool) (clocks : List ClockRow)
    (account : Account) (state : AdapterClockState) (update : List ClockRow → σ) :
    Ensures NotExpired (fun _ => True) (do
      let clocks ← writeClock field refused clocks account state
      .ok (update clocks)) := by
  have hwrite : Ensures NotExpired (fun _ => True)
      (writeClock field refused clocks account state) := by
    unfold writeClock
    split
    · trivial
    · refine (sqliteInteger_errors _ _).bind fun _ _ => ?_
      refine (sqliteInteger_errors _ _).bind fun _ _ => ?_
      refine (sqliteInteger_errors _ _).bind fun _ _ => ?_
      refine (sqliteInteger_errors _ _).bind fun _ _ => ?_
      exact .guard (fun _ => ⟨nofun, nofun⟩) fun _ => trivial
  exact hwrite.bind fun _ _ => trivial

/-- Two limits in a row. -/
theorem limits_errors {high low : Prop} [Decidable high] [Decidable low] {first second : Error}
    (hfirst : NotExpired first) (hsecond : NotExpired second) :
    Ensures NotExpired (fun _ => True)
      (if high then .error first else if low then .error second else .ok ()) :=
  .guard (fun _ => hfirst) fun _ => .guard (fun _ => hsecond) fun _ => trivial

end Foks.ClientDb
