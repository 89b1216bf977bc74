/-
  The log of a file upload.

  A call leaves the uploads and their chunks as they are or appends one chunk. So in every database
  that the calls can reach the chunks of an upload are in order, only the last chunk of a complete
  one is final, and nothing is appended after it (`FileLog`). A chunk that is stored answers the
  same call again, so a write can be repeated (`putKvFileChunkImpl_again`).
-/
import Foks.ServerDb.KvFile

namespace Foks.ServerDb

open Foks.Lib Foks.Crypto

namespace KvFileDatabase

/-! ## The log of an upload -/

/-- The chunks of an upload: the first one starts the file, each one after it starts later, and only
    the last chunk of a complete upload is final. -/
structure UploadLog (row : KvFileUploadRow) (chunks : List KvFileChunkRow) : Prop where
  starts : ∃ first ∈ chunks, first.clearOffset = 0
  ordered : chunks.Pairwise fun a b => a.clearOffset < b.clearOffset
  bytes : row.chunkBytes = (chunks.map (·.ciphertextBytes)).sum
  unfinished : row.complete = false → ∀ chunk ∈ chunks, chunk.finalChunk = false
  finished : row.complete = true → ∃ before last, chunks = before ++ [last] ∧
    last.finalChunk = true ∧ (∀ chunk ∈ before, chunk.finalChunk = false) ∧
      ∃ size, row.encryptedSize = some size ∧ size.toNat = row.chunkBytes

/-- What holds of the uploads and their chunks in every database that the calls can reach. -/
structure FileLog (db : KvFileDatabase) : Prop where
  keyed : Keyed KvFileUploadRow.place db.uploads
  owned : ∀ chunk ∈ db.chunks, ∃ row ∈ db.uploads, row.place = chunk.place
  logs : ∀ row ∈ db.uploads, UploadLog row (db.chunksOf row.place)

variable {db db' : KvFileDatabase}

theorem FileLog.sameLog (h : db.FileLog) (hsame : SameLog db db') : db'.FileLog := by
  obtain ⟨huploads, hchunks⟩ := hsame
  refine ⟨by rw [huploads]; exact h.keyed, ?_, ?_⟩
  · rw [huploads, hchunks]
    exact h.owned
  · unfold chunksOf
    rw [huploads, hchunks]
    exact h.logs

section

variable {db db' : KvFileDatabase} {mutation : KvFileChunkMutation} {digest : Option Hash}
  {row : KvFileUploadRow} {external : Option ExternalChunk}

theorem Extends.place_eq (h : db.Extends mutation row) : row.place = mutation.place := by
  rcases h with ⟨-, -, metadata, -, rfl⟩ | ⟨hupload, -⟩
  · rfl
  · simpa using List.find?_some hupload

theorem Extends.not_complete (h : db.Extends mutation row) : row.complete = false := by
  rcases h with ⟨-, -, metadata, -, rfl⟩ | ⟨-, -, hcomplete, -⟩
  · rfl
  · exact hcomplete

section

variable (h : db.Appended db' mutation digest row external)
include h

theorem Appended.ciphertextBytes :
    (mutation.chunkRow external).ciphertextBytes = mutation.ciphertext.length := by
  cases external with
  | none => rfl
  | some stored => exact h.external_eq.2 stored rfl

theorem Appended.chunksOf_self :
    db'.chunksOf mutation.place = db.chunksOf mutation.place ++ [mutation.chunkRow external] := by
  unfold chunksOf
  rw [h.chunks, List.filter_append]
  have hself : (mutation.chunkRow external).place = mutation.place := rfl
  simp [hself]

theorem Appended.chunksOf_other {place : KvFilePlace} (hplace : place ≠ mutation.place) :
    db'.chunksOf place = db.chunksOf place := by
  unfold chunksOf
  rw [h.chunks, List.filter_append]
  have hself : (mutation.chunkRow external).place = mutation.place := rfl
  simp [hself, hplace.symm]

end

/-- A fresh upload has no chunks yet. -/
theorem FileLog.chunksOf_fresh (hlog : db.FileLog) (hnone : db.kvUpload mutation.place = none) :
    db.chunksOf mutation.place = [] := by
  refine List.filter_eq_nil_iff.mpr fun chunk hchunk hplace => ?_
  obtain ⟨row, hrow, heq⟩ := hlog.owned chunk hchunk
  have hfind := List.find?_eq_none.mp hnone row hrow
  rw [heq] at hfind
  exact hfind hplace

/-- The chunks that were there before the one that is appended. -/
theorem Extends.before (h : db.Extends mutation row) (hlog : db.FileLog) :
    (mutation.offset = 0 ∨ ∃ first ∈ db.chunksOf mutation.place, first.clearOffset = 0) ∧
      (db.chunksOf mutation.place).Pairwise (fun a b => a.clearOffset < b.clearOffset) ∧
      row.chunkBytes = ((db.chunksOf mutation.place).map (·.ciphertextBytes)).sum ∧
      ∀ chunk ∈ db.chunksOf mutation.place, chunk.finalChunk = false := by
  have hopen := h.not_complete
  have hplace := h.place_eq
  rcases h with ⟨hnone, hzero, metadata, -, rfl⟩ | ⟨hupload, -⟩
  · rw [hlog.chunksOf_fresh hnone]
    exact ⟨.inl hzero, .nil, rfl, nofun⟩
  · have hlogs := hlog.logs row (List.mem_of_find?_eq_some hupload)
    rw [hplace] at hlogs
    exact ⟨.inr hlogs.starts, hlogs.ordered, hlogs.bytes, hlogs.unfinished hopen⟩

theorem chunkBytes_withChunk (row : KvFileUploadRow) (chunk : KvFileChunkRow) (now : UInt64)
    (finalSize : Option UInt64) :
    (row.withChunk chunk now finalSize).chunkBytes = row.chunkBytes + chunk.ciphertextBytes := by
  unfold KvFileUploadRow.withChunk
  dsimp only
  repeat' split
  all_goals rfl

/-- The last chunk completes the upload and states its size. -/
theorem complete_withChunk {row : KvFileUploadRow} (hopen : row.complete = false)
    (chunk : KvFileChunkRow) (now : UInt64) (finalSize : Option UInt64) :
    (row.withChunk chunk now finalSize).complete = finalSize.isSome ∧
      ∀ size ∈ finalSize, (row.withChunk chunk now finalSize).encryptedSize = some size := by
  cases finalSize with
  | none => exact ⟨hopen, nofun⟩
  | some size =>
    have hif : row.withChunk chunk now (some size) =
        { row with
          chunkCount := row.chunkCount + 1
          chunkBytes := row.chunkBytes + chunk.ciphertextBytes
          updatedAt := now
          complete := true
          encryptedSize := some size } := if_neg (by simp [hopen])
    rw [hif]
    refine ⟨rfl, fun other hother => ?_⟩
    exact hother.symm ▸ rfl

section

variable (h : db.Appended db' mutation digest row external)
include h

theorem UploadLog.append (hlog : db.FileLog) :
    UploadLog (row.withChunk (mutation.chunkRow external) mutation.now mutation.finalSize)
      (db'.chunksOf mutation.place) := by
  obtain ⟨hstarts, hordered, hbytes, hnone⟩ := h.extends_row.before hlog
  obtain ⟨hcomplete, hsize⟩ := complete_withChunk h.extends_row.not_complete
    (mutation.chunkRow external) mutation.now mutation.finalSize
  rw [h.chunksOf_self]
  refine ⟨?_, ?_, ?_, ?_, ?_⟩
  · rcases hstarts with hzero | ⟨first, hfirst, hzero⟩
    · exact ⟨_, List.mem_append_right _ (List.mem_singleton.mpr rfl), hzero⟩
    · exact ⟨first, List.mem_append_left _ hfirst, hzero⟩
  · refine List.pairwise_append.mpr ⟨hordered, List.pairwise_singleton _ _, fun chunk hchunk => ?_⟩
    intro last hlast
    rw [List.mem_singleton.mp hlast]
    exact h.later chunk hchunk
  · rw [chunkBytes_withChunk, hbytes, List.map_append, List.sum_append]
    rfl
  · intro hopen chunk hchunk
    rcases List.mem_append.mp hchunk with hchunk | hchunk
    · exact hnone chunk hchunk
    · rw [List.mem_singleton.mp hchunk]
      exact hcomplete.symm.trans hopen
  · intro hdone
    refine ⟨_, _, rfl, hcomplete.symm.trans hdone, hnone, ?_⟩
    obtain ⟨size, hfinal⟩ := Option.isSome_iff_exists.mp (hcomplete.symm.trans hdone)
    refine ⟨size, hsize size hfinal, ?_⟩
    rw [chunkBytes_withChunk, h.ciphertextBytes]
    exact h.size size hfinal

theorem Appended.fileLog (hlog : db.FileLog) :
    db'.FileLog := by
  have hplace := h.extends_row.place_eq
  refine ⟨?_, ?_, ?_⟩
  · rw [h.uploads]
    exact hlog.keyed.upsertRow
  · intro chunk hchunk
    rw [h.uploads]
    by_cases hself : chunk.place = mutation.place
    · exact ⟨_, mem_upsertRow.mpr (.inr rfl), by rw [place_withChunk, hplace, hself]⟩
    · have hold : chunk ∈ db.chunks := by
        rw [h.chunks] at hchunk
        rcases List.mem_append.mp hchunk with hchunk | hchunk
        · exact hchunk
        · rw [List.mem_singleton.mp hchunk] at hself
          exact absurd rfl hself
      obtain ⟨owner, howner, heq⟩ := hlog.owned chunk hold
      refine ⟨owner, mem_upsertRow.mpr (.inl ⟨howner, ?_⟩), heq⟩
      rw [place_withChunk, hplace, heq]
      exact hself
  · intro other hother
    rw [h.uploads] at hother
    rcases mem_upsertRow.mp hother with ⟨hmem, hne⟩ | rfl
    · rw [place_withChunk, hplace] at hne
      rw [h.chunksOf_other hne]
      exact hlog.logs other hmem
    · rw [place_withChunk, hplace]
      exact UploadLog.append h hlog

/-- A chunk is never appended to a complete upload. -/
theorem Appended.complete_kept
    (hlog : db.FileLog) {done : KvFileUploadRow} (hdone : done ∈ db.uploads)
    (hcomplete : done.complete = true) :
    done ∈ db'.uploads ∧ db'.chunksOf done.place = db.chunksOf done.place := by
  have hne : done.place ≠ mutation.place := by
    intro heq
    have hfind : db.kvUpload mutation.place = some done :=
      hlog.keyed.find?_eq_some.mpr ⟨hdone, heq⟩
    rcases h.extends_row with ⟨hnone, -⟩ | ⟨hrow, -, hopen, -⟩
    · rw [hnone] at hfind
      cases hfind
    · rw [hrow] at hfind
      cases hfind
      rw [hopen] at hcomplete
      cases hcomplete
  refine ⟨?_, h.chunksOf_other hne⟩
  rw [h.uploads]
  refine mem_upsertRow.mpr (.inl ⟨hdone, ?_⟩)
  rw [place_withChunk, h.extends_row.place_eq]
  exact hne

end

/-! ## Retries -/

variable {chunkDigest : Digest}

theorem kept_withChunk (row : KvFileUploadRow) (chunk : KvFileChunkRow) (now : UInt64)
    (finalSize : Option UInt64) :
    (row.withChunk chunk now finalSize).reclaiming = row.reclaiming ∧
      (row.withChunk chunk now finalSize).exactMetadata = row.exactMetadata := by
  unfold KvFileUploadRow.withChunk
  dsimp only
  repeat' split
  all_goals exact ⟨rfl, rfl⟩

theorem Extends.metadata (h : db.Extends mutation row) : row.reclaiming = false ∧
    ∀ metadata ∈ mutation.exactMetadata, metadata = row.exactMetadata := by
  rcases h with ⟨-, -, metadata, hmetadata, rfl⟩ | ⟨-, hreclaiming, -, hmetadata⟩
  · refine ⟨rfl, fun other hother => ?_⟩
    rw [hmetadata] at hother
    cases hother
    rfl
  · exact ⟨hreclaiming, hmetadata⟩

section

variable (h : db.Appended db' mutation digest row external)
include h

/-- The upload after the chunk takes the same chunk again. -/
theorem Appended.startUpload_again :
    ∃ complete, db'.startUpload mutation = .ok (db', complete) := by
  obtain ⟨hreclaiming, hmetadata⟩ := h.extends_row.metadata
  obtain ⟨hreclaiming', hmetadata'⟩ := kept_withChunk row (mutation.chunkRow external) mutation.now
    mutation.finalSize
  have hupload : db'.kvUpload mutation.place =
      some (row.withChunk (mutation.chunkRow external) mutation.now mutation.finalSize) := by
    unfold kvUpload
    rw [h.uploads, find?_upsertRow, if_pos]
    rw [place_withChunk]
    exact h.extends_row.place_eq
  have hsame : ¬ mutation.exactMetadata.any (· ≠ (row.withChunk (mutation.chunkRow external)
      mutation.now mutation.finalSize).exactMetadata) = true := by
    rw [hmetadata']
    cases hcase : mutation.exactMetadata with
    | none => exact nofun
    | some metadata =>
      rw [hmetadata metadata hcase]
      simp
  unfold startUpload
  rw [hupload]
  refine ⟨_, (if_neg ?_).trans (if_neg hsame)⟩
  rw [hreclaiming', hreclaiming]
  exact Bool.false_ne_true

theorem Appended.kvChunk_self :
    db'.kvChunk mutation.place mutation.offset = some (mutation.chunkRow external) := by
  unfold kvChunk
  rw [h.chunksOf_self, List.find?_append]
  have hnone : (db.chunksOf mutation.place).find?
      (fun chunk => chunk.clearOffset = mutation.offset) = none := by
    refine List.find?_eq_none.mpr fun chunk hchunk heq => ?_
    have hlt := h.later chunk hchunk
    rw [of_decide_eq_true heq] at hlt
    exact absurd hlt (UInt64.lt_irrefl _)
  have hself : (mutation.chunkRow external).clearOffset = mutation.offset := rfl
  simp [hnone, hself]

theorem Appended.holds (hdigest : ∀ given ∈ digest, given = chunkDigest mutation.exactChunk) :
    (mutation.chunkRow external).holds chunkDigest mutation.exactChunk = true := by
  have hmap := h.external_eq.1
  cases external with
  | none => exact decide_eq_true rfl
  | some stored => exact decide_eq_true (hdigest stored.digest hmap.symm)

theorem Appended.transaction_again
    (hdigest : ∀ given ∈ digest, given = chunkDigest mutation.exactChunk)
    (hrange : mutation.offset.toNat < 2 ^ 63) (commit : Bool) :
    db'.fileChunkTransaction chunkDigest mutation digest commit = .ok none := by
  obtain ⟨complete, hstart⟩ := h.startUpload_again
  unfold fileChunkTransaction
  rw [hstart, ok_bind, sqlInteger_eq_ok.mpr ⟨hrange, rfl⟩]
  dsimp only
  rw [ok_bind, h.kvChunk_self]
  exact if_pos (h.holds hdigest)

end

/-- A call whose transaction has nothing to do. -/
theorem putKvFileChunkImpl_of_none {commit : Bool} (hvalid : ¬ mutation.isInvalid = true)
    (hknown : Known db.kv mutation.uid)
    (hnothing : db.fileChunkTransaction chunkDigest mutation digest commit = .ok none) :
    db.putKvFileChunkImpl chunkDigest mutation digest commit = (.ok (), db) := by
  unfold putKvFileChunkImpl
  rw [if_neg hvalid, hknown.ensureKvNamespace]
  dsimp only
  rw [hnothing]

/-- The call again, after it was accepted: it is accepted and changes nothing. -/
theorem putKvFileChunkImpl_again {commit : Bool}
    (hdigest : ∀ given ∈ digest, given = chunkDigest mutation.exactChunk)
    (hok : db.putKvFileChunkImpl chunkDigest mutation digest commit = (.ok (), db')) :
    db'.putKvFileChunkImpl chunkDigest mutation digest commit = (.ok (), db') := by
  unfold putKvFileChunkImpl at hok
  split at hok
  · cases hok
  rename_i hvalid
  match hcase : db.kv.ensureKvNamespace mutation.uid with
  | .error error =>
    rw [hcase] at hok
    cases hok
  | .ok (false, kv) =>
    rw [hcase] at hok
    cases hok
  | .ok (true, kv) =>
    rw [hcase] at hok
    dsimp only at hok
    have hknown := known_of_ensureKvNamespace hcase
    cases htransaction :
        fileChunkTransaction chunkDigest { db with kv } mutation digest commit with
    | error error =>
      rw [htransaction] at hok
      cases hok
    | ok result =>
      rw [htransaction] at hok
      cases result with
      | none =>
        cases hok
        exact putKvFileChunkImpl_of_none hvalid hknown htransaction
      | some after =>
        cases hok
        obtain ⟨-, hrange, hkeeps, row, external, happended⟩ :=
          fileChunkTransaction_eq_some (by simpa using hvalid) htransaction
        exact putKvFileChunkImpl_of_none hvalid (hkeeps hknown)
          (happended.transaction_again hdigest hrange commit)

end

/-! ## Runs -/

/-- The calls that write a chunk, or ask whether it can be written. -/
inductive FileCall where
  | put (mutation : KvFileChunkMutation)
  | putExternal (mutation : KvFileChunkMutation) (digest : Hash)
  | preflight (mutation : KvFileChunkMutation)

def FileCall.run (chunkDigest : Digest) (db : KvFileDatabase) :
    FileCall → Except Error Unit × KvFileDatabase
  | .put mutation => db.putKvFileChunk chunkDigest mutation
  | .putExternal mutation digest => db.putKvFileChunkExternal chunkDigest mutation digest
  | .preflight mutation => db.preflightKvFileChunk chunkDigest mutation

/-- One step: a call, or whatever else happens outside the uploads and their chunks. -/
inductive FileStep (chunkDigest : Digest) : KvFileDatabase → KvFileDatabase → Prop where
  | call (db : KvFileDatabase) (call : FileCall) :
      FileStep chunkDigest db (call.run chunkDigest db).2
  | outside (db : KvFileDatabase) (kv : KvDatabase) (objects : List ChunkObjectRow)
      (binding : Option (FixedBytes 16)) :
      FileStep chunkDigest db { db with kv, objects, binding }

/-- The databases that the calls can reach from one without uploads. -/
def FileReached (chunkDigest : Digest) (db : KvFileDatabase) : Prop :=
  ∃ kv objects binding,
    Relation.ReflTransGen (FileStep chunkDigest) ⟨kv, [], [], objects, binding⟩ db

/-- A preflight enters the namespace at most. -/
theorem preflightKvFileChunk_enters (chunkDigest : Digest) (db : KvFileDatabase)
    (mutation : KvFileChunkMutation) :
    ∃ namespaces, db.kv.EntersNamespace mutation.uid namespaces ∧
      (db.preflightKvFileChunk chunkDigest mutation).2 =
        { db with kv := { db.kv with namespaces } } := by
  rcases db.putKvFileChunkImpl_cases chunkDigest mutation none false with h | ⟨hcommit, -⟩
  · exact h
  · cases hcommit

theorem validateEncodedChunk_digest {chunkDigest : Digest} {mutation : KvFileChunkMutation}
    {digest : Hash} (h : validateEncodedChunk chunkDigest mutation digest = .ok ()) :
    digest = chunkDigest mutation.exactChunk := by
  obtain ⟨hsizes, -⟩ := ite_error_eq_ok.mp h
  simp only [not_or, not_not] at hsizes
  exact hsizes.2.2.2.2

/-- A step leaves the log as it is or appends a chunk to it. -/
theorem FileStep.cases {chunkDigest : Digest} (h : FileStep chunkDigest db db') :
    SameLog db db' ∨
      ∃ mutation digest row external, db.Appended db' mutation digest row external := by
  have himpl (mutation : KvFileChunkMutation) (digest : Option Hash) (commit : Bool) :
      SameLog db (db.putKvFileChunkImpl chunkDigest mutation digest commit).2 ∨
        ∃ mutation' digest' row external,
          db.Appended (db.putKvFileChunkImpl chunkDigest mutation digest commit).2 mutation' digest'
            row external := by
    rcases db.putKvFileChunkImpl_cases chunkDigest mutation digest commit with
      ⟨namespaces, -, heq⟩ | ⟨-, -, -, -, row, external, happended⟩
    · rw [heq]
      exact .inl ⟨rfl, rfl⟩
    · exact .inr ⟨mutation, digest, row, external, happended⟩
  cases h with
  | outside kv objects binding => exact .inl ⟨rfl, rfl⟩
  | call call =>
    cases call with
    | put mutation => exact himpl mutation none true
    | preflight mutation => exact himpl mutation none false
    | putExternal mutation digest =>
      unfold FileCall.run putKvFileChunkExternal
      dsimp only
      cases validateEncodedChunk chunkDigest mutation digest with
      | error error => exact .inl ⟨rfl, rfl⟩
      | ok => exact himpl mutation (some digest) true

theorem FileStep.fileLog {chunkDigest : Digest} (h : FileStep chunkDigest db db')
    (hlog : db.FileLog) : db'.FileLog := by
  rcases h.cases with hsame | ⟨mutation, digest, row, external, happended⟩
  · exact hlog.sameLog hsame
  · exact happended.fileLog hlog

theorem FileReached.fileLog {chunkDigest : Digest} (h : FileReached chunkDigest db) :
    db.FileLog := by
  obtain ⟨kv, objects, binding, hrun⟩ := h
  induction hrun with
  | refl => exact ⟨keyed_nil, nofun, nofun⟩
  | tail _ hstep ih => exact hstep.fileLog ih

theorem complete_kept {chunkDigest : Digest} (hlog : db.FileLog)
    (hrun : Relation.ReflTransGen (FileStep chunkDigest) db db') {done : KvFileUploadRow}
    (hdone : done ∈ db.uploads) (hcomplete : done.complete = true) :
    db'.FileLog ∧ done ∈ db'.uploads ∧ db'.chunksOf done.place = db.chunksOf done.place := by
  induction hrun with
  | refl => exact ⟨hlog, hdone, rfl⟩
  | tail _ hstep ih =>
    obtain ⟨hmid, hmem, hchunks⟩ := ih
    refine ⟨hstep.fileLog hmid, ?_⟩
    rcases hstep.cases with ⟨huploads, hsame⟩ | ⟨mutation, digest, row, external, happended⟩
    · rw [huploads, ← hchunks]
      exact ⟨hmem, congrArg (List.filter _) hsame⟩
    · obtain ⟨hkept, hchunks'⟩ := happended.complete_kept hmid hmem hcomplete
      exact ⟨hkept, hchunks'.trans hchunks⟩

/-- The chunks of a complete upload: one starts the file, the offsets increase, the last chunk and
    no other is final, and the lengths of the ciphertexts add up to the size. -/
structure CompleteLog (row : KvFileUploadRow) (chunks : List KvFileChunkRow) : Prop where
  start : ∃ first ∈ chunks, first.clearOffset = 0
  increasing : chunks.Pairwise fun a b => a.clearOffset < b.clearOffset
  final : ∃ before last, chunks = before ++ [last] ∧ last.finalChunk = true ∧
    ∀ chunk ∈ before, chunk.finalChunk = false
  size : ∃ size, row.encryptedSize = some size ∧
    size.toNat = (chunks.map (·.ciphertextBytes)).sum

theorem UploadLog.completeLog {row : KvFileUploadRow} {chunks : List KvFileChunkRow}
    (h : UploadLog row chunks) (hcomplete : row.complete = true) : CompleteLog row chunks := by
  obtain ⟨before, last, hchunks, hlast, hbefore, size, hsize, hbytes⟩ := h.finished hcomplete
  exact ⟨h.starts, h.ordered, ⟨before, last, hchunks, hlast, hbefore⟩, size, hsize,
    hbytes.trans h.bytes⟩

/-- In every database that the calls can reach, complete uploads are in order and stay as they are,
    a preflight enters a namespace at most, and an accepted write can be repeated. -/
theorem upload_log_complete {chunkDigest : Digest} {db : KvFileDatabase}
    (h : FileReached chunkDigest db) :
    (∀ row ∈ db.uploads, row.complete = true → CompleteLog row (db.chunksOf row.place)) ∧
    (∀ db', Relation.ReflTransGen (FileStep chunkDigest) db db' → ∀ row ∈ db.uploads,
      row.complete = true → row ∈ db'.uploads ∧ db'.chunksOf row.place = db.chunksOf row.place) ∧
    (∀ mutation, ∃ namespaces, db.kv.EntersNamespace mutation.uid namespaces ∧
      (db.preflightKvFileChunk chunkDigest mutation).2 =
        { db with kv := { db.kv with namespaces } }) ∧
    (∀ mutation db', db.putKvFileChunk chunkDigest mutation = (.ok (), db') →
      db'.putKvFileChunk chunkDigest mutation = (.ok (), db')) ∧
    ∀ mutation digest db', db.putKvFileChunkExternal chunkDigest mutation digest = (.ok (), db') →
      db'.putKvFileChunkExternal chunkDigest mutation digest = (.ok (), db') := by
  have hlog := h.fileLog
  refine ⟨?_, ?_, db.preflightKvFileChunk_enters chunkDigest, ?_, ?_⟩
  · intro row hrow hcomplete
    exact (hlog.logs row hrow).completeLog hcomplete
  · intro db' hrun row hrow hcomplete
    exact (complete_kept hlog hrun hrow hcomplete).2
  · intro mutation db' hok
    exact putKvFileChunkImpl_again nofun hok
  · intro mutation digest db' hok
    unfold putKvFileChunkExternal at hok ⊢
    cases hvalid : validateEncodedChunk chunkDigest mutation digest with
    | error error =>
      rw [hvalid] at hok
      cases hok
    | ok =>
      rw [hvalid] at hok
      refine putKvFileChunkImpl_again (fun given hgiven => ?_) hok
      cases hgiven
      exact validateEncodedChunk_digest hvalid

namespace FileLogSample

open KvDatabase.KvSample (uid fresh)

def fileId : FixedBytes 16 := .replicate 16 2

def chunkDigest : Digest := fun _ => .replicate 32 5

/-- A party that has not used the store yet. The second chunk is ready outside. -/
def start : KvFileDatabase where
  kv := fresh
  uploads := []
  chunks := []
  objects := [⟨.replicate 32 6, some (.replicate 16 7), some (.replicate 32 5), 43, .present⟩]
  binding := some (.replicate 16 7)

def firstChunk : KvFileChunkMutation := ⟨uid, fileId, some [1], 0, [8, 8], none, [9], 100⟩

/-- The last chunk, which states the size of both ciphertexts. -/
def lastChunk : KvFileChunkMutation :=
  ⟨uid, fileId, none, 10, [8, 8, 8], some 5,
    Snowpack.wire (.array [.binary [8, 8, 8], .unsigned 10,
      .array [.unsigned 5, .binary (List.replicate 32 0)]]), 101⟩

def stored : KvFileDatabase :=
  ((start.putKvFileChunk chunkDigest firstChunk).2.putKvFileChunkExternal chunkDigest lastChunk
    (.replicate 32 5)).2

theorem start_reached : FileReached chunkDigest start := ⟨_, _, _, .refl⟩

theorem stored_reached : FileReached chunkDigest stored :=
  ⟨_, _, _, .tail (.tail .refl (.call start (.put firstChunk)))
    (.call _ (.putExternal lastChunk (.replicate 32 5)))⟩

/-- An upload of two chunks, one of them outside. -/
theorem stored_in_order : ∃ row ∈ stored.uploads, row.complete = true ∧
    CompleteLog row (stored.chunksOf row.place) := by
  have hany : (stored.uploads.any fun row => row.complete) = true := by decide +kernel
  obtain ⟨row, hrow, hcomplete⟩ := List.any_eq_true.mp hany
  exact ⟨row, hrow, hcomplete, (upload_log_complete stored_reached).1 row hrow hcomplete⟩

/-- The preflight of the first chunk enters the namespace. -/
theorem preflight_enters_namespace : FileReached chunkDigest start ∧
    (start.preflightKvFileChunk chunkDigest firstChunk).1 = .ok () ∧
    (start.preflightKvFileChunk chunkDigest firstChunk).2.kv.namespaces ≠
      start.kv.namespaces := by
  refine ⟨start_reached, ?_, ?_⟩
  · decide +kernel
  · decide +kernel

end FileLogSample

end KvFileDatabase

end Foks.ServerDb
