/-
  The errors of the client's database (`foks-client-db`, `lib.rs`), as far as the repositories here
  return them, integers on their way into a column, and transactions.
-/
import Mathlib.Algebra.Group.Nat.Defs
import Foks.Lib.Outcome

namespace Foks.ClientDb

open Foks.Lib

inductive Error where
  | integerOutOfRange (field : String)
  | constraint
  | adapterIdentityConflict
  | adapterExpired
  | adapterFutureHandle
  | adapterClockUntrusted
  | adapterRetentionFull
  | adapterActiveFull
  | uploadIdentityConflict
  | uploadLegacyReadOnly
  | uploadGenerationMismatch
  | uploadExpired
  | uploadFutureHandle
  | uploadClockUntrusted
  | uploadPendingFull
  | uploadSpoolFull
  | uploadRetentionFull
  | invalidMutationOperation (message : String)
  | unknownHost
  deriving DecidableEq

/-- `sqlite_integer`: columns are signed. -/
def sqliteInteger (field : String) (value : Nat) : Except Error Nat :=
  if value < 2 ^ 63 then .ok value else .error (.integerOutOfRange field)

/-- A transaction that fails is rolled back. One that commits has its own answer. -/
def transact {Store Result : Type} (db : Store)
    (transaction : Except Error (Except Error Result × Store)) : Except Error Result × Store :=
  match transaction with
  | .error error => (.error error, db)
  | .ok committed => committed

/-- What holds of the answer and of the store it leaves, from the errors and the result of the
    transaction. -/
theorem transact_ensures {Store Result : Type} {Q : Except Error Result → Store → Prop} {db : Store}
    {transaction : Except Error (Except Error Result × Store)}
    (h : Ensures (fun error => Q (.error error) db) (fun done => Q done.1 done.2) transaction) :
    Q (transact db transaction).1 (transact db transaction).2 := by
  cases transaction with
  | error error => exact h
  | ok done => exact h

end Foks.ClientDb
