/-
  File uploads of the KV store (`foks-server-db`, `kv.rs` and `kv_objects.rs`, the tables and
  triggers of `schema/kv.sql`, `kv_external.sql` and `chunk_ledger.sql`).

  A file is uploaded chunk by chunk. The first chunk brings the metadata and enters the upload, each
  further one starts after all chunks before it, and the one that states the size of the file
  completes it. A chunk is stored in the database or, by its digest, as an object outside of it.
  What a call can do to the tables is said once (`putKvFileChunkImpl_cases`): nothing, or append one
  chunk.

  A preflight runs the checks and commits nothing. The namespace of the party, however, is entered
  before the transaction starts, so it stays.
-/
import Foks.ServerDb.KvInvariant

namespace Foks.ServerDb

open Foks.Lib Foks.Proto Foks.Crypto

def maximumChunkBytes : Nat := 9 * 1024 * 1024

def maximumFileBytes : Nat := 2 * 1024 * 1024 * 1024 + 1024 * 1024

def maximumChunks : Nat := 512

/-! ## Tables -/

/-- The namespace and the file of an upload. -/
abbrev KvFilePlace := List UInt8 × FixedBytes 16

structure KvFileUploadRow where
  uid : List UInt8
  fileId : FixedBytes 16
  exactMetadata : List UInt8
  complete : Bool
  reclaiming : Bool
  encryptedSize : Option UInt64
  createdAt : UInt64
  updatedAt : UInt64
  chunkCount : Nat
  chunkBytes : Nat
  deriving DecidableEq

/-- The columns of a chunk that is stored outside. -/
structure ExternalChunk where
  digest : Hash
  ciphertextBytes : Nat
  encodedBytes : Nat
  objectId : FixedBytes 32
  deriving DecidableEq

structure KvFileChunkRow where
  uid : List UInt8
  fileId : FixedBytes 16
  clearOffset : UInt64
  ciphertext : List UInt8
  finalChunk : Bool
  exactUploadChunk : List UInt8
  external : Option ExternalChunk
  deriving DecidableEq

inductive ChunkObjectState where
  | reserved
  | uncertain
  | present
  deriving DecidableEq

structure ChunkObjectRow where
  objectId : FixedBytes 32
  namespaceId : Option (FixedBytes 16)
  digest : Option Hash
  encodedBytes : Nat
  state : ChunkObjectState
  deriving DecidableEq

/-- The KV store with its uploads. The binding is the namespace of the active chunk storage. -/
structure KvFileDatabase where
  kv : KvDatabase
  uploads : List KvFileUploadRow
  chunks : List KvFileChunkRow
  objects : List ChunkObjectRow
  binding : Option (FixedBytes 16)

def KvFileUploadRow.place (row : KvFileUploadRow) : KvFilePlace := (row.uid, row.fileId)

def KvFileChunkRow.place (row : KvFileChunkRow) : KvFilePlace := (row.uid, row.fileId)

/-- The length of the ciphertext, wherever it is. -/
def KvFileChunkRow.ciphertextBytes (row : KvFileChunkRow) : Nat :=
  row.external.elim row.ciphertext.length (·.ciphertextBytes)

def KvFileChunkRow.encodedBytes (row : KvFileChunkRow) : Nat :=
  row.external.elim row.exactUploadChunk.length (·.encodedBytes)

structure KvFileChunkMutation where
  uid : List UInt8
  fileId : FixedBytes 16
  exactMetadata : Option (List UInt8)
  offset : UInt64
  ciphertext : List UInt8
  finalSize : Option UInt64
  exactChunk : List UInt8
  now : UInt64

namespace KvFileChunkMutation

section

variable (mutation : KvFileChunkMutation)

def place : KvFilePlace := (mutation.uid, mutation.fileId)

/-- What is refused before the database is asked. -/
def isInvalid : Bool :=
  mutation.uid.length ≠ 33 || mutation.ciphertext.isEmpty ||
    maximumChunkBytes < mutation.ciphertext.length || mutation.exactChunk.isEmpty ||
    maximumChunkBytes + 1024 < mutation.exactChunk.length ||
    mutation.finalSize.any (fun size => size = 0 || maximumFileBytes < size.toNat) ||
    mutation.exactMetadata.any (fun metadata => metadata.isEmpty || 64 * 1024 < metadata.length) ||
    (mutation.exactMetadata.isSome && mutation.offset ≠ 0)

/-- The upload as the first chunk enters it. -/
def freshUpload (metadata : List UInt8) (now : UInt64) : KvFileUploadRow :=
  ⟨mutation.uid, mutation.fileId, metadata, false, false, none, now, now, 0, 0⟩

/-- The chunk as it is stored. -/
def chunkRow (external : Option ExternalChunk) : KvFileChunkRow where
  uid := mutation.uid
  fileId := mutation.fileId
  clearOffset := mutation.offset
  ciphertext := if external.isSome then [] else mutation.ciphertext
  finalChunk := mutation.finalSize.isSome
  exactUploadChunk := if external.isSome then [] else mutation.exactChunk
  external := external

end

end KvFileChunkMutation

/-- The stored chunk is the one that is uploaded again. -/
def KvFileChunkRow.holds (chunkDigest : Digest) (row : KvFileChunkRow) (exact : List UInt8) :
    Bool :=
  match row.external with
  | some external => external.digest = chunkDigest exact
  | none => row.exactUploadChunk = exact

/-- The upload after a chunk: the counters of the trigger, the time, and the size if the chunk was
    the last one. -/
def KvFileUploadRow.withChunk (row : KvFileUploadRow) (chunk : KvFileChunkRow) (now : UInt64)
    (finalSize : Option UInt64) : KvFileUploadRow :=
  let row := { row with
    chunkCount := row.chunkCount + 1
    chunkBytes := row.chunkBytes + chunk.ciphertextBytes
    updatedAt := now }
  match finalSize with
  | some size =>
    if row.complete then row else { row with complete := true, encryptedSize := some size }
  | none => row

variable {uid : List UInt8} {complete : Bool}

namespace KvFileDatabase

/-! ## The calls -/

section

variable (db : KvFileDatabase) (place : KvFilePlace)

def kvUpload : Option KvFileUploadRow :=
  db.uploads.find? fun row => row.place = place

/-- The chunks of an upload, in the order in which they came. -/
def chunksOf : List KvFileChunkRow :=
  db.chunks.filter fun chunk => chunk.place = place

def kvChunk (offset : UInt64) : Option KvFileChunkRow :=
  (db.chunksOf place).find? fun chunk => chunk.clearOffset = offset

def maximumOffset : Option Nat :=
  ((db.chunksOf place).map (·.clearOffset.toNat)).max?

variable (mutation : KvFileChunkMutation)

/-- The upload that a chunk is for, entered if the chunk starts it, and whether it is complete. -/
def startUpload : Except Error (KvFileDatabase × Bool) :=
  match db.kvUpload mutation.place with
  | none =>
    match mutation.exactMetadata with
    | none => .error .kvConflict
    | some metadata => do
      let now ← sqlInteger mutation.now
      let entered : KvDatabase :=
        { db.kv with uploads := db.kv.uploads ++ [⟨mutation.uid, mutation.fileId, false⟩] }
      let kv ← entered.account mutation.uid metadata.length 1 0 0
      .ok ({ db with kv, uploads := db.uploads ++ [mutation.freshUpload metadata now] }, false)
  | some row =>
    if row.reclaiming then .error .kvConflict
    else if mutation.exactMetadata.any (· ≠ row.exactMetadata) then .error .kvConflict
    else .ok (db, row.complete)

/-- What a new chunk needs. Returns the upload it is appended to. -/
def admitChunk (complete : Bool) : Except Error KvFileUploadRow := do
  if complete then .error .kvConflict else
  let row ← okOr .noRows (db.kvUpload mutation.place)
  if maximumChunks ≤ row.chunkCount ∨
      (db.maximumOffset mutation.place).any (mutation.offset.toNat ≤ ·) then .error .kvConflict else
  let encryptedBytes ← KvDatabase.checkedSum row.chunkBytes mutation.ciphertext.length
  if maximumFileBytes < encryptedBytes ∨ mutation.finalSize.any (·.toNat ≠ encryptedBytes) then
    .error (.invalid "KV file encrypted size")
  else
  db.kv.ensureKvCapacity mutation.uid (mutation.ciphertext.length + mutation.exactChunk.length) 1
  .ok row

/-- `chunk_ledger::require_present`. -/
def requirePresent (digest : Hash) (length : Nat) : Except Error (FixedBytes 32) := do
  let namespaceId ←
    okOr (.invalid "physical accounting requires active chunk binding") db.binding
  let row ← okOr (.invalid "external object is not durably accounted")
    (db.objects.find? fun row => row.digest = some digest ∧ row.namespaceId = some namespaceId ∧
      row.encodedBytes = length ∧ row.state = .present)
  .ok row.objectId

def externalChunk : Option Hash → Except Error (Option ExternalChunk)
  | none => .ok none
  | some digest => do
    let objectId ← db.requirePresent digest mutation.exactChunk.length
    .ok (some ⟨digest, mutation.ciphertext.length, mutation.exactChunk.length, objectId⟩)

/-- The insert of the chunk, with its triggers, and the updates of the upload. An upload has one
    final chunk, and it is not updated before it was created. -/
def appendChunk (row : KvFileUploadRow) (digest : Option Hash) : Except Error KvFileDatabase := do
  let external ← db.externalChunk mutation digest
  let chunk := mutation.chunkRow external
  if chunk.finalChunk ∧ (db.chunksOf mutation.place).any (·.finalChunk) then .error .constraint else
  let kv ← db.kv.account mutation.uid (chunk.ciphertextBytes + chunk.encodedBytes) 1 0 0
  let now ← sqlInteger mutation.now
  if now < row.createdAt then .error .constraint else
  .ok { db with
    kv
    chunks := db.chunks ++ [chunk]
    uploads := upsertRow KvFileUploadRow.place db.uploads
      (row.withChunk chunk now mutation.finalSize) }

end

section

variable (chunkDigest : Digest) (db : KvFileDatabase) (mutation : KvFileChunkMutation)

/-- The transaction: the database to commit, if there is one. -/
def fileChunkTransaction (digest : Option Hash) (commit : Bool) :
    Except Error (Option KvFileDatabase) := do
  let (db, complete) ← db.startUpload mutation
  let offset ← sqlInteger mutation.offset
  match db.kvChunk mutation.place offset with
  | some chunk =>
    if chunk.holds chunkDigest mutation.exactChunk then .ok none else .error .kvConflict
  | none => do
    let row ← db.admitChunk mutation complete
    if commit then (db.appendChunk mutation row digest).map some else .ok none

def putKvFileChunkImpl (digest : Option Hash) (commit : Bool) :
    Except Error Unit × KvFileDatabase :=
  if mutation.isInvalid then (.error (.invalid "KV file chunk mutation"), db)
  else
    match db.kv.ensureKvNamespace mutation.uid with
    | .error error => (.error error, db)
    | .ok (false, kv) => (.error (.invalid "unknown KV namespace"), { db with kv })
    | .ok (true, kv) =>
      match fileChunkTransaction chunkDigest { db with kv } mutation digest commit with
      | .error error => (.error error, { db with kv })
      | .ok none => (.ok (), { db with kv })
      | .ok (some db') => (.ok (), db')

def putKvFileChunk : Except Error Unit × KvFileDatabase :=
  db.putKvFileChunkImpl chunkDigest mutation none true

def preflightKvFileChunk : Except Error Unit × KvFileDatabase :=
  db.putKvFileChunkImpl chunkDigest mutation none false

/-- `kv_objects::validate_encoded_chunk`, and the size that the chunk states. -/
def validateEncodedChunk (digest : Hash) : Except Error Unit := do
  if mutation.exactChunk.isEmpty ∨ maximumChunkBytes + 1024 < mutation.exactChunk.length ∨
      mutation.ciphertext.isEmpty ∨ maximumChunkBytes < mutation.ciphertext.length ∨
      digest ≠ chunkDigest mutation.exactChunk then
    .error (.invalid "external KV chunk digest or size")
  else
  let decoded ← (KvUploadChunk.decode mutation.exactChunk).mapError fun _ =>
    .invalid "external KV chunk encoding"
  if decoded.offset ≠ mutation.offset ∨ decoded.ciphertext ≠ mutation.ciphertext ∨
      decoded.finalUpload.isSome ≠ mutation.finalSize.isSome then
    .error (.invalid "external KV chunk fields")
  else if decoded.finalUpload.map (·.size) ≠ mutation.finalSize then
    .error (.invalid "external KV chunk final size")
  else .ok ()

def putKvFileChunkExternal (digest : Hash) : Except Error Unit × KvFileDatabase :=
  match validateEncodedChunk chunkDigest mutation digest with
  | .error error => (.error error, db)
  | .ok () => db.putKvFileChunkImpl chunkDigest mutation (some digest) true

end

/-! ## What a call does -/

section

variable {chunkDigest : Digest} {db db' : KvFileDatabase} {mutation : KvFileChunkMutation}
  {digest : Option Hash} {commit : Bool}

/-- The uploads and the chunks are the same. -/
def SameLog (db db' : KvFileDatabase) : Prop := db'.uploads = db.uploads ∧ db'.chunks = db.chunks

/-- The upload that a chunk goes to, before it: a fresh one, or one that is not complete. -/
def Extends (db : KvFileDatabase) (mutation : KvFileChunkMutation) (row : KvFileUploadRow) : Prop :=
  (db.kvUpload mutation.place = none ∧ mutation.offset = 0 ∧
      ∃ metadata, mutation.exactMetadata = some metadata ∧
        row = mutation.freshUpload metadata mutation.now) ∨
    (db.kvUpload mutation.place = some row ∧ row.reclaiming = false ∧ row.complete = false ∧
      ∀ metadata ∈ mutation.exactMetadata, metadata = row.exactMetadata)

/-- A chunk was appended to an upload. -/
structure Appended (db db' : KvFileDatabase) (mutation : KvFileChunkMutation) (digest : Option Hash)
    (row : KvFileUploadRow) (external : Option ExternalChunk) : Prop where
  extends_row : db.Extends mutation row
  later : ∀ chunk ∈ db.chunksOf mutation.place, chunk.clearOffset < mutation.offset
  size : ∀ size ∈ mutation.finalSize, size.toNat = row.chunkBytes + mutation.ciphertext.length
  external_eq : external.map (·.digest) = digest ∧
    ∀ stored ∈ external, stored.ciphertextBytes = mutation.ciphertext.length
  uploads : db'.uploads = upsertRow KvFileUploadRow.place db.uploads
    (row.withChunk (mutation.chunkRow external) mutation.now mutation.finalSize)
  chunks : db'.chunks = db.chunks ++ [mutation.chunkRow external]

theorem maximumOffset_lt {place : KvFilePlace} {offset : UInt64}
    (h : ¬ (db.maximumOffset place).any (offset.toNat ≤ ·) = true) :
    ∀ chunk ∈ db.chunksOf place, chunk.clearOffset < offset := by
  intro chunk hchunk
  have hmem : chunk.clearOffset.toNat ∈ (db.chunksOf place).map (·.clearOffset.toNat) :=
    List.mem_map_of_mem hchunk
  cases hmax : db.maximumOffset place with
  | none =>
    rw [List.max?_eq_none_iff.mp hmax] at hmem
    cases hmem
  | some greatest =>
    rw [hmax] at h
    have hle := (List.max?_eq_some_iff.mp hmax).2 _ hmem
    have hlt : ¬ offset.toNat ≤ greatest := by simpa using h
    exact UInt64.lt_iff_toNat_lt.mpr (by omega)

/-- The namespace is entered and is that of the party. -/
def Known (kv : KvDatabase) (uid : List UInt8) : Prop :=
  uid.length = 33 ∧ ∃ party row, kv.parties.find? (fun row => row.id = uid) = some party ∧
    kv.namespaces.find? (fun row => row.id = uid) = some row ∧
      row.partyKind = party.partyKind ∧ row.hostId = party.hostId

theorem Known.ensureKvNamespace {kv : KvDatabase} (h : Known kv uid) :
    kv.ensureKvNamespace uid = .ok (true, kv) := by
  obtain ⟨hlength, party, row, hparty, hrow, hkind, hhost⟩ := h
  unfold KvDatabase.ensureKvNamespace
  rw [if_neg (not_not.mpr hlength), hparty]
  rw [hrow]
  simp [hkind, hhost]

theorem known_of_ensureKvNamespace {kv kv' : KvDatabase}
    (h : kv.ensureKvNamespace uid = .ok (true, kv')) : Known kv' uid := by
  obtain ⟨hlength, h⟩ := ite_error_eq_ok.mp h
  refine ⟨not_not.mp hlength, ?_⟩
  cases hparty : kv.parties.find? fun row => row.id = uid with
  | none =>
    rw [hparty] at h
    cases h
  | some party =>
    cases hrow : kv.namespaces.find? fun row => row.id = uid with
    | none =>
      simp only [hparty, hrow] at h
      cases h
      refine ⟨party, ⟨uid, party.partyKind, party.hostId, 0, 0, 0, 0⟩, hparty, ?_, rfl, rfl⟩
      rw [List.find?_append, hrow]
      simp
    | some row =>
      simp only [hparty, hrow, Except.ok.injEq, Prod.mk.injEq, decide_eq_true_eq] at h
      obtain ⟨⟨hkind, hhost⟩, rfl⟩ := h
      exact ⟨party, row, hparty, hrow, hkind, hhost⟩

/-- Accounting changes the counters of namespaces only. -/
theorem account_charges {kv kv' : KvDatabase} {bytes objects : Int}
    (h : kv.account uid bytes objects 0 0 = .ok kv') : ∃ charge : KvNamespaceRow → KvNamespaceRow,
      (∀ row, (charge row).id = row.id ∧ (charge row).partyKind = row.partyKind ∧
        (charge row).hostId = row.hostId) ∧
      kv' = { kv with namespaces := kv.namespaces.map charge } := by
  rcases ite_eq_ok h with ⟨-, h⟩ | ⟨-, h⟩
  · cases h
    refine ⟨_, fun row => ?_, rfl⟩
    split <;> exact ⟨rfl, rfl, rfl⟩
  · cases h

theorem Known.account {kv kv' : KvDatabase} {bytes objects : Int} (hknown : Known kv uid)
    (h : kv.account uid bytes objects 0 0 = .ok kv') : Known kv' uid := by
  obtain ⟨hlength, party, row, hparty, hrow, hkind, hhost⟩ := hknown
  obtain ⟨charge, hcharge, rfl⟩ := account_charges h
  obtain ⟨-, hkind', hhost'⟩ := hcharge row
  refine ⟨hlength, party, charge row, hparty, ?_, hkind'.trans hkind, hhost'.trans hhost⟩
  have hsame : ((fun row : KvNamespaceRow => decide (row.id = uid)) ∘ charge) =
      fun row => decide (row.id = uid) := by
    funext row
    simp [(hcharge row).1]
  rw [List.find?_map, hsame, hrow]
  rfl

theorem startUpload_eq_ok (h : db.startUpload mutation = .ok (db', complete)) :
    (∃ row, db.kvUpload mutation.place = some row ∧ row.reclaiming = false ∧
        (∀ metadata ∈ mutation.exactMetadata, metadata = row.exactMetadata) ∧ db' = db ∧
        complete = row.complete) ∨
      ∃ metadata kv, db.kvUpload mutation.place = none ∧
        mutation.exactMetadata = some metadata ∧
        (Known db.kv mutation.uid → Known kv mutation.uid) ∧ complete = false ∧
        db' = { db with
          kv, uploads := db.uploads ++ [mutation.freshUpload metadata mutation.now] } := by
  unfold startUpload at h
  cases hupload : db.kvUpload mutation.place with
  | some row =>
    rw [hupload] at h
    obtain ⟨hreclaiming, h⟩ := ite_error_eq_ok.mp h
    obtain ⟨hmetadata, h⟩ := ite_error_eq_ok.mp h
    cases h
    refine .inl ⟨row, rfl, by simpa using hreclaiming, fun metadata hmem => ?_, rfl, rfl⟩
    rw [Option.mem_def.mp hmem] at hmetadata
    simpa using hmetadata
  | none =>
    rw [hupload] at h
    cases hmetadata : mutation.exactMetadata with
    | none =>
      rw [hmetadata] at h
      cases h
    | some metadata =>
      rw [hmetadata] at h
      obtain ⟨now, hnow, h⟩ := bind_eq_ok.mp h
      obtain ⟨kv, haccount, h⟩ := bind_eq_ok.mp h
      obtain ⟨-, rfl⟩ := sqlInteger_eq_ok.mp hnow
      cases h
      refine .inr ⟨metadata, kv, rfl, rfl, fun hknown => ?_, rfl, rfl⟩
      have hentered : Known { db.kv with
          uploads := db.kv.uploads ++ [⟨mutation.uid, mutation.fileId, false⟩] }
          mutation.uid := hknown
      exact hentered.account haccount

variable {row : KvFileUploadRow}

theorem admitChunk_eq_ok (h : db.admitChunk mutation complete = .ok row) :
    complete = false ∧ db.kvUpload mutation.place = some row ∧
      (∀ chunk ∈ db.chunksOf mutation.place, chunk.clearOffset < mutation.offset) ∧
      ∀ size ∈ mutation.finalSize, size.toNat = row.chunkBytes + mutation.ciphertext.length := by
  obtain ⟨hcomplete, h⟩ := ite_error_eq_ok.mp h
  obtain ⟨upload, hupload, h⟩ := bind_eq_ok.mp h
  obtain ⟨hlater, h⟩ := ite_error_eq_ok.mp h
  obtain ⟨encryptedBytes, hbytes, h⟩ := bind_eq_ok.mp h
  obtain ⟨hsize, h⟩ := ite_error_eq_ok.mp h
  obtain ⟨_, -, h⟩ := bind_eq_ok.mp h
  cases h
  rw [not_or] at hlater hsize
  refine ⟨by simpa using hcomplete, okOr_eq_ok.mp hupload, maximumOffset_lt hlater.2, ?_⟩
  intro size hmem
  have hsum : encryptedBytes = row.chunkBytes + mutation.ciphertext.length := by
    rcases ite_eq_ok hbytes with ⟨-, hbytes⟩ | ⟨-, hbytes⟩
    · cases hbytes
      rfl
    · cases hbytes
  rw [Option.mem_def.mp hmem] at hsize
  rw [← hsum]
  simpa using hsize.2

theorem externalChunk_eq_ok {external : Option ExternalChunk}
    (h : db.externalChunk mutation digest = .ok external) :
    external.map (·.digest) = digest ∧
      ∀ stored ∈ external, stored.ciphertextBytes = mutation.ciphertext.length := by
  cases digest with
  | none =>
    cases h
    exact ⟨rfl, nofun⟩
  | some digest =>
    obtain ⟨objectId, -, h⟩ := bind_eq_ok.mp h
    cases h
    refine ⟨rfl, fun stored hstored => ?_⟩
    cases hstored
    rfl

theorem appendChunk_eq_ok (h : db.appendChunk mutation row digest = .ok db') :
    ∃ external kv, (external.map (·.digest) = digest ∧
        ∀ stored ∈ external, stored.ciphertextBytes = mutation.ciphertext.length) ∧
      (Known db.kv mutation.uid → Known kv mutation.uid) ∧
      db' = { db with
        kv
        chunks := db.chunks ++ [mutation.chunkRow external]
        uploads := upsertRow KvFileUploadRow.place db.uploads
          (row.withChunk (mutation.chunkRow external) mutation.now mutation.finalSize) } := by
  obtain ⟨external, hexternal, h⟩ := bind_eq_ok.mp h
  obtain ⟨-, h⟩ := ite_error_eq_ok.mp h
  obtain ⟨kv, haccount, h⟩ := bind_eq_ok.mp h
  obtain ⟨now, hnow, h⟩ := bind_eq_ok.mp h
  obtain ⟨-, h⟩ := ite_error_eq_ok.mp h
  obtain ⟨-, rfl⟩ := sqlInteger_eq_ok.mp hnow
  cases h
  exact ⟨external, kv, externalChunk_eq_ok hexternal, fun hknown => hknown.account haccount, rfl⟩

theorem place_withChunk (row : KvFileUploadRow) (chunk : KvFileChunkRow) (now : UInt64)
    (finalSize : Option UInt64) : (row.withChunk chunk now finalSize).place = row.place := by
  unfold KvFileUploadRow.withChunk
  dsimp only
  repeat' split
  all_goals rfl

/-- The row that was just entered is the one that is replaced. -/
theorem upsertRow_append {rows : List KvFileUploadRow} {fresh : KvFileUploadRow}
    (h : fresh.place = row.place) :
    upsertRow KvFileUploadRow.place (rows ++ [fresh]) row =
      upsertRow KvFileUploadRow.place rows row := by
  simp [upsertRow, List.filter_append, h]

theorem offset_eq_zero (hvalid : mutation.isInvalid = false)
    (hmetadata : mutation.exactMetadata.isSome = true) : mutation.offset = 0 := by
  simp only [KvFileChunkMutation.isInvalid, Bool.or_eq_false_iff] at hvalid
  simpa [hmetadata] using hvalid.2

/-- The upload before the chunk, from what the transaction started with. -/
theorem startUpload_extends {mid : KvFileDatabase} (hvalid : mutation.isInvalid = false)
    (hstart : db.startUpload mutation = .ok (mid, complete))
    (hupload : mid.kvUpload mutation.place = some row) (hcomplete : complete = false) :
    db.Extends mutation row ∧ mid.chunks = db.chunks ∧
      (∀ new, row.place = KvFileUploadRow.place new →
        upsertRow KvFileUploadRow.place mid.uploads new =
          upsertRow KvFileUploadRow.place db.uploads new) ∧
      (Known db.kv mutation.uid → Known mid.kv mutation.uid) := by
  rcases startUpload_eq_ok hstart with ⟨other, hother, hreclaiming, hmetadata, rfl, hsame⟩ |
    ⟨metadata, kv, hnone, hmetadata, hknown, -, rfl⟩
  · rw [hother] at hupload
    cases hupload
    have hopen : row.complete = false := hsame.symm.trans hcomplete
    exact ⟨.inr ⟨hother, hreclaiming, hopen, hmetadata⟩, rfl, fun _ _ => rfl, id⟩
  · have hrow : row = mutation.freshUpload metadata mutation.now := by
      have hfind : ((db.uploads ++ [mutation.freshUpload metadata mutation.now]).find?
          fun row => row.place = mutation.place) = some row := hupload
      rw [List.find?_append, show db.uploads.find? (fun row => row.place = mutation.place) = none
        from hnone] at hfind
      have hplace : (mutation.freshUpload metadata mutation.now).place = mutation.place := rfl
      simp only [List.find?_singleton, hplace, decide_true, if_true, Option.none_or,
        Option.some.injEq] at hfind
      exact hfind.symm
    have hzero : mutation.offset = 0 := offset_eq_zero hvalid (by rw [hmetadata]; rfl)
    refine ⟨.inl ⟨hnone, hzero, metadata, hmetadata, hrow⟩, rfl, fun new hnew => ?_, hknown⟩
    exact upsertRow_append (by rw [← hrow]; exact hnew)

/-- A transaction that commits has appended a chunk. -/
theorem fileChunkTransaction_eq_some (hvalid : mutation.isInvalid = false)
    (h : db.fileChunkTransaction chunkDigest mutation digest commit = .ok (some db')) :
    commit = true ∧ mutation.offset.toNat < 2 ^ 63 ∧
      (Known db.kv mutation.uid → Known db'.kv mutation.uid) ∧
      ∃ row external, db.Appended db' mutation digest row external := by
  obtain ⟨⟨mid, complete⟩, hstart, h⟩ := bind_eq_ok.mp h
  obtain ⟨offset, hoffset, h⟩ := bind_eq_ok.mp h
  obtain ⟨hrange, rfl⟩ := sqlInteger_eq_ok.mp hoffset
  cases hchunk : mid.kvChunk mutation.place mutation.offset with
  | some chunk =>
    rw [hchunk] at h
    rcases ite_eq_ok h with ⟨-, h⟩ | ⟨-, h⟩ <;> cases h
  | none =>
    rw [hchunk] at h
    obtain ⟨row, hadmit, h⟩ := bind_eq_ok.mp h
    obtain ⟨hcomplete, hupload, hlater, hsize⟩ := admitChunk_eq_ok hadmit
    obtain ⟨hextends, hchunks, hupsert, hknown⟩ :=
      startUpload_extends hvalid hstart hupload hcomplete
    rcases ite_eq_ok h with ⟨hcommit, h⟩ | ⟨-, h⟩
    · obtain ⟨after, happend, hafter⟩ := map_eq_ok.mp h
      cases hafter
      obtain ⟨external, kv, hexternal, hknown', rfl⟩ := appendChunk_eq_ok happend
      refine ⟨hcommit, hrange, fun hdb => hknown' (hknown hdb), row, external, hextends, ?_,
        hsize, hexternal, ?_, ?_⟩
      · intro chunk hmem
        unfold chunksOf at hlater
        rw [hchunks] at hlater
        exact hlater chunk hmem
      · exact hupsert _ (place_withChunk row _ _ _).symm
      · show mid.chunks ++ _ = _
        rw [hchunks]
    · cases h

/-- A call enters the namespace, if it is missing, and otherwise either changes nothing or appends a
    chunk. Only a commit appends. -/
theorem putKvFileChunkImpl_cases (chunkDigest : Digest) (db : KvFileDatabase)
    (mutation : KvFileChunkMutation) (digest : Option Hash) (commit : Bool) :
    (∃ namespaces, db.kv.EntersNamespace mutation.uid namespaces ∧
        (db.putKvFileChunkImpl chunkDigest mutation digest commit).2 =
          { db with kv := { db.kv with namespaces } }) ∨
      commit = true ∧ (db.putKvFileChunkImpl chunkDigest mutation digest commit).1 = .ok () ∧
        mutation.offset.toNat < 2 ^ 63 ∧
        Known (db.putKvFileChunkImpl chunkDigest mutation digest commit).2.kv mutation.uid ∧
        ∃ row external,
          db.Appended (db.putKvFileChunkImpl chunkDigest mutation digest commit).2 mutation digest
            row external := by
  unfold putKvFileChunkImpl
  have hsame : db.kv.EntersNamespace mutation.uid db.kv.namespaces := .inl rfl
  split
  · exact .inl ⟨_, hsame, rfl⟩
  rename_i hvalid
  match hcase : db.kv.ensureKvNamespace mutation.uid with
  | .error error => exact .inl ⟨_, hsame, rfl⟩
  | .ok (false, kv) =>
    obtain ⟨namespaces, henters, rfl⟩ := KvDatabase.ensureKvNamespace_eq_ok hcase
    exact .inl ⟨namespaces, henters, rfl⟩
  | .ok (true, kv) =>
    have hknown := known_of_ensureKvNamespace hcase
    obtain ⟨namespaces, henters, rfl⟩ := KvDatabase.ensureKvNamespace_eq_ok hcase
    dsimp only
    cases htransaction : fileChunkTransaction chunkDigest
        { db with kv := { db.kv with namespaces } } mutation digest commit with
    | error error => exact .inl ⟨namespaces, henters, rfl⟩
    | ok result =>
      cases result with
      | none => exact .inl ⟨namespaces, henters, rfl⟩
      | some db' =>
        obtain ⟨hcommit, hrange, hkeeps, row, external, happended⟩ :=
          fileChunkTransaction_eq_some (by simpa using hvalid) htransaction
        exact .inr ⟨hcommit, rfl, hrange, hkeeps hknown, row, external,
          ⟨happended.extends_row, happended.later, happended.size, happended.external_eq,
            happended.uploads, happended.chunks⟩⟩

end

end KvFileDatabase

end Foks.ServerDb
