/-
  The KV requests of the server (`foks-server`, `services/kv.rs`): `mkdir` and `put`.

  Whether the caller may write is left out: a request that is not allowed changes nothing. An entry
  that is put gets the time of the server, and is stored as it is encoded then; so what is stored
  decodes to the entry that was sent but for its time (`kvPut_cases`).
-/
import Foks.ServerDb.KvInvariant

namespace Foks.Server

open Foks.Lib Foks.Proto Foks.ServerDb

/-- The status of a KV request. -/
inductive KvStatus where
  | badArguments (detail : String)
  | malformed (error : Proto.Error)
  | database (error : ServerDb.Error)
  deriving DecidableEq

/-- The two numbers a role is stored as. -/
def roleParts (role : Role) : UInt64 × Int64 :=
  (role.protocolValue, (role.visibility.map (·.toInt64)).getD 0)

def directoryMutation (uid : List UInt8) (directory : KvDirectory) (exact : List UInt8) :
    KvDirectoryMutation :=
  ⟨uid, directory.id, directory.version, (roleParts directory.key.role).1,
    (roleParts directory.key.role).2, directory.key.generation, 0, exact⟩

section

variable (db : KvDatabase) (uid : List UInt8) (precondition : Option KvPathVersionVector)

/-- `mkdir`. -/
def kvMkdir (exact : List UInt8) : Except KvStatus Unit × KvDatabase :=
  match KvDirectory.decode exact with
  | .error error => (.error (.malformed error), db)
  | .ok directory =>
    if directory.version ≠ 1 ∨ directory.status ≠ .active then
      (.error (.badArguments "initial KV directory must be active version one"), db)
    else
      let written := db.putKvDirectory (directoryMutation uid directory exact) precondition
      (written.1.mapError .database, written.2)

/-- An entry of a `put` request. -/
def readDirent (exact : List UInt8) : Except KvStatus KvDirent := do
  let dirent ← (KvDirent.decode exact).mapError .malformed
  if dirent.version = 0 ∨ dirent.directoryVersion = 0 ∨ dirent.directoryStatus ≠ .active then
    .error (.badArguments "KV dirent uses unsupported mutation metadata")
  else .ok dirent

/-- The time of an entry is that of the server, or the one it was stored with if it is sent
    again. -/
def stampDirent (now : UInt64) (dirent : KvDirent) : Except KvStatus KvDirent := do
  let stored ← (db.kvDirent (uid, dirent.parent, dirent.id)).mapM fun row =>
    (KvDirent.decode row.exact).mapError KvStatus.malformed
  let creationTime := ((stored.filter fun old => old.version = dirent.version).map
    (·.creationTime)).getD now
  (dirent.setCreationTime creationTime).mapError .malformed

def direntMutation (dirent : KvDirent) : KvDirentMutation :=
  ⟨dirent.parent, dirent.id, dirent.version, dirent.directoryVersion, dirent.value, dirent.nameMac,
    dirent.creationTime, dirent.exact⟩

/-- The entries of a `put` request as they are stored. -/
def readPut (now : UInt64) (exacts : List (List UInt8)) : Except KvStatus (List KvDirent) := do
  if exacts = [] ∨ exacts.length > 64 then
    .error (.badArguments "KV put batch must contain 1 through 64 dirents")
  else do
    let dirents ← exacts.mapM readDirent
    dirents.mapM (stampDirent db uid now)

/-- `put`. -/
def kvPut (maximumRole : Role) (now : UInt64) (exacts : List (List UInt8)) :
    Except KvStatus Unit × KvDatabase :=
  match readPut db uid now exacts with
  | .error error => (.error error, db)
  | .ok dirents =>
    let written := db.putKvDirents uid precondition maximumRole (dirents.map direntMutation)
    (written.1.mapError .database, written.2)

/-! ## What is stored -/

theorem kvMkdir_cases {directory : KvDirectory} {exact : List UInt8}
    (hexact : directory.encode = .ok exact) :
    ∃ namespaces, ((kvMkdir db uid precondition exact).2 = { db with namespaces } ∧
        ((kvMkdir db uid precondition exact).1 = .ok () →
          (db.directoryVersion uid directory.id).isSome = true)) ∨
      ∃ row, (kvMkdir db uid precondition exact).2 = { db with
        namespaces
        directories := db.directories ++ [row]
        directoryHeads := db.directoryHeads ++ [⟨uid, directory.id, directory.version⟩] } := by
  unfold kvMkdir
  rw [KvDirectory.decode_encode hexact]
  dsimp only
  split
  · exact ⟨db.namespaces, .inl ⟨rfl, by simp⟩⟩
  · obtain ⟨namespaces, ⟨hsame, hthere⟩ | ⟨row, -, -, hnew⟩⟩ :=
      db.putKvDirectory_cases (directoryMutation uid directory exact) precondition
    · exact ⟨namespaces, .inl ⟨hsame, fun hok => hthere (mapError_eq_ok.mp hok)⟩⟩
    · exact ⟨namespaces, .inr ⟨row, hnew⟩⟩

/-- The entry that is stored is the one sent, with another time. -/
def StoredAs (dirent stored : KvDirent) : Prop :=
  stored.IsSealed ∧ ∃ creationTime exact, stored = { dirent with creationTime, exact }

variable {db}

theorem stampDirent_eq_ok {uid : List UInt8} {now : UInt64} {dirent stored : KvDirent}
    (hsealed : dirent.IsSealed) (h : stampDirent db uid now dirent = .ok stored) :
    StoredAs dirent stored := by
  obtain ⟨_, -, h⟩ := bind_eq_ok.mp h
  obtain ⟨hstored, exact, rfl⟩ :=
    KvDirent.setCreationTime_eq_ok hsealed (mapError_eq_ok.mp h)
  exact ⟨hstored, _, exact, rfl⟩

theorem readDirent_eq_ok {dirent read : KvDirent} (hsealed : dirent.IsSealed)
    (h : readDirent dirent.exact = .ok read) : read = dirent := by
  obtain ⟨decoded, hdecoded, h⟩ := bind_eq_ok.mp h
  obtain ⟨-, h⟩ := ite_error_eq_ok.mp h
  have hsame := mapError_eq_ok.mp hdecoded
  rw [hsealed.decode_exact] at hsame
  cases hsame
  cases h
  rfl

theorem readPut_eq_ok {uid : List UInt8} {now : UInt64} {dirents stored : List KvDirent}
    (hsealed : ∀ dirent ∈ dirents, dirent.IsSealed)
    (h : readPut db uid now (dirents.map (·.exact)) = .ok stored) :
    List.Forall₂ StoredAs dirents stored := by
  obtain ⟨-, hbody⟩ := ite_error_eq_ok.mp h
  obtain ⟨read, hread, hstamp⟩ := bind_eq_ok.mp hbody
  have hreads := mapM_eq_ok_iff.mp hread
  have hstamps := mapM_eq_ok_iff.mp hstamp
  rw [List.forall₂_map_left_iff] at hreads
  clear h hbody hread hstamp
  induction dirents generalizing read stored with
  | nil =>
    cases hreads
    cases hstamps
    exact .nil
  | cons dirent dirents ih =>
    obtain ⟨first, rest, hfirst, hrest, rfl⟩ := List.forall₂_cons_left_iff.mp hreads
    obtain ⟨last, tail, hlast, htail, rfl⟩ := List.forall₂_cons_left_iff.mp hstamps
    obtain rfl := readDirent_eq_ok (hsealed dirent List.mem_cons_self) hfirst
    refine .cons (stampDirent_eq_ok (hsealed _ List.mem_cons_self) hlast) ?_
    exact ih (fun other hother => hsealed other (List.mem_cons_of_mem _ hother)) rest hrest htail

/-- A `put` stores all of its entries, when everything its precondition cites is as cited, or leaves
    the entries as they were. -/
theorem kvPut_cases (supplied : KvPathVersionVector) (maximumRole : Role) (now : UInt64)
    {dirents : List KvDirent} (hsealed : ∀ dirent ∈ dirents, dirent.IsSealed) :
    (∃ namespaces, (kvPut db uid (some supplied) maximumRole now (dirents.map (·.exact))).2 =
      { db with namespaces }) ∨
    ∃ stored, List.Forall₂ StoredAs dirents stored ∧
      (∀ directory ∈ supplied.directories, ∀ entry ∈ directory.entries,
        db.direntVersion (uid, directory.id, entry.id) = some entry.version) ∧
      (kvPut db uid (some supplied) maximumRole now (dirents.map (·.exact))).1 = .ok () ∧
      KvDatabase.BatchDone uid (stored.map direntMutation) db
        (kvPut db uid (some supplied) maximumRole now (dirents.map (·.exact))).2 := by
  unfold kvPut
  cases hread : readPut db uid now (dirents.map (·.exact)) with
  | error error => exact .inl ⟨db.namespaces, rfl⟩
  | ok stored =>
    rcases db.putKvDirents_cases uid (some supplied) maximumRole (stored.map direntMutation) with
      ⟨namespaces, -, hsame⟩ | ⟨hcited, hok, hdone⟩
    · exact .inl ⟨namespaces, hsame⟩
    · refine .inr ⟨stored, readPut_eq_ok hsealed hread, hcited supplied rfl, ?_, hdone⟩
      dsimp only
      rw [hok]
      rfl

end

theorem kvPut_consistent (h : db.Consistent) (uid : List UInt8)
    (precondition : Option KvPathVersionVector) (maximumRole : Role) (now : UInt64)
    (exacts : List (List UInt8)) :
    (kvPut db uid precondition maximumRole now exacts).2.Consistent := by
  unfold kvPut
  split
  · exact h
  · exact h.putKvDirents uid precondition maximumRole _

end Foks.Server
