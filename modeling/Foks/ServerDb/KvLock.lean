/-
  Locks on directory entries (`foks-server-db`, `kv.rs`, the table `kv_locks`).

  A row says who has locked an entry and since when. How long is not stored: whoever wants the lock
  next says how old a lock has to be before they take it over. So a lock excludes the others for the
  shortest time that one of them is prepared to wait, and what its holder asked for plays no part.
-/
import Foks.ServerDb.Kv

namespace Foks.ServerDb

open Foks.Lib

structure KvLockRow where
  uid : List UInt8
  parent : FixedBytes 16
  dirent : FixedBytes 16
  lock : FixedBytes 16
  createdAt : UInt64
  deriving DecidableEq

def KvLockRow.place (row : KvLockRow) : KvPlace := (row.uid, row.parent, row.dirent)

structure KvLockDatabase where
  kv : KvDatabase
  locks : List KvLockRow

namespace KvLockDatabase

section

variable (db : KvLockDatabase) (place : KvPlace)

def kvLock : Option KvLockRow :=
  db.locks.find? fun row => row.place = place

/-- A lock stands in the way until it is as old as the caller's own timeout. -/
def requireExpired (existing : Option KvLockRow) (now timeout : UInt64) : Except Error Unit :=
  match existing with
  | none => .ok ()
  | some row =>
    let expiresAt := row.createdAt.toNat + timeout.toNat
    if 2 ^ 64 ≤ expiresAt then .error .integerRange
    else if now.toNat < expiresAt then .error .kvLocked
    else .ok ()

/-- Only a new row needs room and is charged; an update of the lock fires no trigger. -/
def ensureLockCapacity : Except Error Unit :=
  if (db.kvLock place).isNone then db.kv.ensureKvCapacity place.1 64 1 else .ok ()

def chargeLock : Except Error KvDatabase :=
  if (db.kvLock place).isNone then db.kv.account place.1 64 1 0 0 else .ok db.kv

variable (lock : FixedBytes 16)

/-- The transaction of `acquire_kv_lock`. -/
def takeLock (now timeout : UInt64) : Except Error KvLockDatabase :=
  if !(db.kv.directoryHeads.any fun row => row.place = (place.1, place.2.1)) then
    .error .kvConflict
  else do
    requireExpired (db.kvLock place) now timeout
    db.ensureLockCapacity place
    let createdAt ← sqlInteger now
    let kv ← db.chargeLock place
    .ok ⟨kv, upsertRow KvLockRow.place db.locks
      ⟨place.1, place.2.1, place.2.2, lock, createdAt⟩⟩

def acquireKvLock (now timeout : UInt64) : Except Error Unit × KvLockDatabase :=
  if place.1.length ≠ 33 then (.error (.invalid "KV lock"), db)
  else
    match db.kv.ensureKvNamespace place.1 with
    | .error error => (.error error, db)
    | .ok (false, kv) => (.error (.invalid "unknown KV namespace"), { db with kv })
    | .ok (true, kv) =>
      match takeLock { db with kv } place lock now timeout with
      | .error error => (.error error, { db with kv })
      | .ok db' => (.ok (), db')

def releaseKvLock : Except Error Unit × KvLockDatabase :=
  let isHeld (row : KvLockRow) : Bool := row.place = place && row.lock = lock
  if !db.locks.any isHeld then (.error .kvLockTimeout, db)
  else
    match db.kv.account place.1 (-64) (-1) 0 0 with
    | .error error => (.error error, db)
    | .ok kv => (.ok (), ⟨kv, db.locks.filter fun row => !isHeld row⟩)

/-! ## One call -/

section

variable {db db' : KvLockDatabase} {place : KvPlace} {lock : FixedBytes 16} {now timeout : UInt64}

theorem takeLock_eq_ok (h : db.takeLock place lock now timeout = .ok db') :
    (∀ row, db.kvLock place = some row → row.createdAt.toNat + timeout.toNat ≤ now.toNat) ∧
      db'.locks = upsertRow KvLockRow.place db.locks
        ⟨place.1, place.2.1, place.2.2, lock, now⟩ := by
  unfold takeLock at h
  obtain ⟨_, hexists⟩ := ite_error_eq_ok.mp h
  obtain ⟨_, hexpired, hcapacity⟩ := bind_eq_ok.mp hexists
  obtain ⟨_, _, hstore⟩ := bind_eq_ok.mp hcapacity
  obtain ⟨createdAt, hcreated, hcharge⟩ := bind_eq_ok.mp hstore
  obtain ⟨kv, _, hdone⟩ := bind_eq_ok.mp hcharge
  obtain ⟨_, rfl⟩ := sqlInteger_eq_ok.mp hcreated
  cases hdone
  refine ⟨fun row hrow => ?_, rfl⟩
  rw [hrow] at hexpired
  unfold requireExpired at hexpired
  obtain ⟨_, hnow⟩ := ite_error_eq_ok.mp hexpired
  exact Nat.not_lt.mp (ite_error_eq_ok.mp hnow).1

/-- A lock that is acquired was old enough for the caller, and is theirs; otherwise the locks are as
    before. -/
theorem acquireKvLock_cases (db : KvLockDatabase) (place : KvPlace) (lock : FixedBytes 16)
    (now timeout : UInt64) :
    ((db.acquireKvLock place lock now timeout).1 = .ok () ∧
        (∀ row, db.kvLock place = some row → row.createdAt.toNat + timeout.toNat ≤ now.toNat) ∧
        (db.acquireKvLock place lock now timeout).2.locks = upsertRow KvLockRow.place db.locks
          ⟨place.1, place.2.1, place.2.2, lock, now⟩) ∨
      ((db.acquireKvLock place lock now timeout).1 ≠ .ok () ∧
        (db.acquireKvLock place lock now timeout).2.locks = db.locks) := by
  unfold acquireKvLock
  split
  · exact .inr ⟨nofun, rfl⟩
  · split
    · exact .inr ⟨nofun, rfl⟩
    · exact .inr ⟨nofun, rfl⟩
    · rename_i kv _
      cases htake : takeLock { db with kv } place lock now timeout with
      | error error => exact .inr ⟨nofun, rfl⟩
      | ok db' =>
        obtain ⟨hexpired, hlocks⟩ := takeLock_eq_ok htake
        exact .inl ⟨rfl, hexpired, hlocks⟩

/-- The lock is held under an identifier since some time. -/
def Held (db : KvLockDatabase) (place : KvPlace) (lock : FixedBytes 16) (since : Nat) : Prop :=
  ∃ row, db.kvLock place = some row ∧ row.lock = lock ∧ since ≤ row.createdAt.toNat

theorem held_of_acquired (h : (db.acquireKvLock place lock now timeout).1 = .ok ()) :
    (db.acquireKvLock place lock now timeout).2.Held place lock now.toNat := by
  rcases db.acquireKvLock_cases place lock now timeout with ⟨_, _, hlocks⟩ | ⟨hfailed, _⟩
  · refine ⟨⟨place.1, place.2.1, place.2.2, lock, now⟩, ?_, rfl, Nat.le_refl _⟩
    rw [kvLock, hlocks, find?_upsertRow]
    exact if_pos rfl
  · exact absurd h hfailed

/-- While a lock is younger than the timeout of a caller, the caller does not get it. -/
theorem acquire_fails_of_held {since : Nat} (hheld : db.Held place lock since)
    {other : FixedBytes 16} (hyoung : now.toNat < since + timeout.toNat) :
    (db.acquireKvLock place other now timeout).1 ≠ .ok () := by
  obtain ⟨row, hrow, _, hsince⟩ := hheld
  rcases db.acquireKvLock_cases place other now timeout with ⟨_, hexpired, _⟩ | hfailed
  · have := hexpired row hrow
    omega
  · exact hfailed.1

end

/-! ## Runs -/

inductive Call where
  | acquire (place : KvPlace) (lock : FixedBytes 16) (now timeout : UInt64)
  | release (place : KvPlace) (lock : FixedBytes 16)
  deriving DecidableEq

def Call.apply : Call → KvLockDatabase
  | .acquire place lock now timeout => (db.acquireKvLock place lock now timeout).2
  | .release place lock => (db.releaseKvLock place lock).2

def Call.time : Call → Option UInt64
  | .acquire _ _ now _ => some now
  | .release _ _ => none

/-- The call does not give the lock away: it does not release it, and if it is for the same entry
    and under another identifier, its timeout is no shorter than the lease. -/
def Call.Patient (lease : Nat) : Call → Prop
  | .acquire place' lock' _ timeout => place' = place → lock' ≠ lock → lease ≤ timeout.toNat
  | .release place' lock' => ¬ (place' = place ∧ lock' = lock)

instance (lease : Nat) : DecidablePred (Call.Patient place lock lease)
  | .acquire _ _ _ timeout => inferInstanceAs (Decidable (_ → _ → lease ≤ timeout.toNat))
  | .release .. => inferInstanceAs (Decidable (¬ _))

def run (calls : List Call) : KvLockDatabase := calls.foldl Call.apply db

end

section

variable {db : KvLockDatabase} {place place' : KvPlace} {lock lock' : FixedBytes 16}
  {since lease : Nat}

section

variable (hheld : db.Held place lock since)
include hheld

theorem Held.of_locks {db' : KvLockDatabase}
    (hlocks : db'.locks = db.locks) : db'.Held place lock since := by
  unfold Held kvLock at *
  rw [hlocks]
  exact hheld

theorem Held.acquire {now timeout : UInt64} (hafter : since ≤ now.toNat)
    (hbefore : now.toNat < since + lease)
    (hpatient : (Call.acquire place' lock' now timeout).Patient place lock lease) :
    (db.acquireKvLock place' lock' now timeout).2.Held place lock since := by
  rcases db.acquireKvLock_cases place' lock' now timeout with ⟨hok, _, hlocks⟩ | ⟨_, hlocks⟩
  · by_cases hplace : place' = place
    · subst hplace
      by_cases hlock : lock' = lock
      · subst hlock
        obtain ⟨row, hrow, hid, hsince⟩ := held_of_acquired hok
        exact ⟨row, hrow, hid, Nat.le_trans hafter hsince⟩
      · have hlease := hpatient rfl hlock
        exact absurd hok (acquire_fails_of_held hheld (by omega))
    · obtain ⟨row, hrow, hid, hsince⟩ := hheld
      refine ⟨row, ?_, hid, hsince⟩
      rw [kvLock, hlocks, find?_upsertRow, if_neg]
      · exact hrow
      · exact fun heq => hplace heq
  · exact hheld.of_locks hlocks

theorem Held.release (hpatient : (Call.release place' lock').Patient place lock lease) :
    (db.releaseKvLock place' lock').2.Held place lock since := by
  unfold releaseKvLock
  dsimp only
  split
  · exact hheld
  · split
    · exact hheld
    · obtain ⟨row, hrow, hid, hsince⟩ := hheld
      refine ⟨row, ?_, hid, hsince⟩
      -- the first row of the entry is not the one that goes
      obtain ⟨hplace, before, after, hsplit, hbefore⟩ := List.find?_eq_some_iff_append.mp hrow
      have hstays : ¬ (row.place = place' ∧ row.lock = lock') := fun hgoes =>
        hpatient ⟨hgoes.1.symm.trans (of_decide_eq_true hplace), hgoes.2.symm.trans hid⟩
      rw [kvLock, List.find?_filter, List.find?_eq_some_iff_append]
      refine ⟨?_, before, after, hsplit, fun other hother => ?_⟩
      · simp only [Bool.not_eq_true', Bool.and_eq_false_iff, decide_eq_false_iff_not,
          decide_eq_true_eq]
        exact ⟨not_and_or.mp hstays, of_decide_eq_true hplace⟩
      · have hnot := hbefore other hother
        simp only [Bool.not_eq_true', decide_eq_false_iff_not] at hnot
        simp [hnot]

theorem Held.run {calls : List Call}
    (hpatient : ∀ call ∈ calls, call.Patient place lock lease)
    (htimes : ∀ call ∈ calls, ∀ now ∈ call.time,
      since ≤ now.toNat ∧ now.toNat < since + lease) : (db.run calls).Held place lock since := by
  induction calls generalizing db with
  | nil => exact hheld
  | cons call calls ih =>
    rw [List.forall_mem_cons] at hpatient htimes
    refine ih ?_ hpatient.2 htimes.2
    cases call with
    | acquire place' lock' now timeout =>
      obtain ⟨hafter, hbefore⟩ := htimes.1 now rfl
      exact hheld.acquire hafter hbefore hpatient.1
    | release place' lock' => exact hheld.release hpatient.1

end

/-- A lock excludes the others for as long as each of them is prepared to wait: an acquire under
    another identifier fails when its time is within the lease, the lock was not released, and
    nobody else who asked for it in between or now passed a timeout shorter than the lease. -/
theorem lock_excludes_patient {db : KvLockDatabase} {place : KvPlace} {lock lock' : FixedBytes 16}
    {now timeout now' timeout' : UInt64} {calls : List Call} {lease : Nat}
    (hacquired : (db.acquireKvLock place lock now timeout).1 = .ok ()) (hother : lock' ≠ lock)
    (htimes : (now :: (calls.filterMap Call.time ++ [now'])).Pairwise (· ≤ ·))
    (hpatient : ∀ call ∈ calls ++ [.acquire place lock' now' timeout'],
      call.Patient place lock lease)
    (hwithin : now'.toNat < now.toNat + lease) :
    (((db.acquireKvLock place lock now timeout).2.run calls).acquireKvLock place lock' now'
      timeout').1 ≠ .ok () := by
  rw [List.pairwise_cons, List.pairwise_append] at htimes
  obtain ⟨hafter, _, _, hbefore⟩ := htimes
  have hwithinAll : ∀ call ∈ calls, ∀ u ∈ call.time,
      now.toNat ≤ u.toNat ∧ u.toNat < now.toNat + lease := by
    intro call hcall u hu
    have hmem : u ∈ calls.filterMap Call.time := List.mem_filterMap.mpr ⟨call, hcall, hu⟩
    have hlow := hafter u (List.mem_append_left _ hmem)
    have hhigh := hbefore u hmem now' (by simp)
    rw [UInt64.le_iff_toNat_le] at hlow hhigh
    omega
  have hheld := (held_of_acquired hacquired).run
    (fun call hcall => hpatient call (List.mem_append_left _ hcall)) hwithinAll
  have hlease : (Call.acquire place lock' now' timeout').Patient place lock lease :=
    hpatient _ (List.mem_append_right _ (List.mem_singleton_self _))
  have := hlease rfl hother
  exact acquire_fails_of_held hheld (by omega)

end

/-! ## A lock that is taken over at once -/

namespace LockSample

def owner : List UInt8 := List.replicate 33 1

def place : KvPlace := (owner, .replicate 16 2, .replicate 16 3)

def first : FixedBytes 16 := .replicate 16 4

def second : FixedBytes 16 := .replicate 16 5

/-- A store with one directory. -/
def start : KvLockDatabase where
  kv := {
    config := .standard
    parties := [⟨owner, 1, []⟩]
    namespaces := []
    directories := []
    directoryHeads := [⟨owner, .replicate 16 2, 1⟩]
    roots := []
    nodes := []
    uploads := []
    dirents := []
    direntHeads := []
    current := [] }
  locks := []

def locked : KvLockDatabase := (start.acquireKvLock place first 100 200).2

/-- The holder asks again, and another caller tries, gives up and takes the lock of an entry
    beside it. -/
def between : List Call :=
  [.acquire place second 110 200, .acquire place first 120 200, .release place second,
    .acquire (owner, .replicate 16 2, .replicate 16 6) second 130 0]

/-- Most of the lease is over, and a caller who would wait for as long does not get the lock. -/
theorem second_waits : (start.acquireKvLock place first 100 200).1 = .ok () ∧
    ((locked.run between).acquireKvLock place second 290 200).1 ≠ .ok () := by
  have hok : (start.acquireKvLock place first 100 200).1 = .ok () := by decide +kernel
  have hpatient : ∀ call ∈ between ++ [.acquire place second 290 200],
      call.Patient place first 200 := by
    decide
  exact ⟨hok, lock_excludes_patient hok (by decide) (by decide) hpatient (by decide)⟩

/-- A caller with a shorter timeout takes the lock over within the lease that its holder asked
    for. -/
theorem second_takes_over : (start.acquireKvLock place first 100 200).1 = .ok () ∧ second ≠ first ∧
    (100 : UInt64) ≤ 100 ∧ (100 : UInt64).toNat < 100 + 200 ∧
    (locked.acquireKvLock place second 100 0).1 = .ok () := by decide +kernel

end LockSample

end KvLockDatabase

end Foks.ServerDb
