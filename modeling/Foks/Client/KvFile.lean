/-
  Large files (`foks-client`, `kv/uploads.rs` and the download loop of `kv/sync.rs`).

  An upload seals the chunks of a file at the offsets where they start and marks the last one. A
  download asks for the chunk at the offset it has reached, opens what it is given, and goes on
  until it has opened a chunk marked as the last one. The server may answer anything.

  `download_eq_uploaded`: with ideal encryption, a download that ends has the bytes of the upload.

  The chunks that the reader of an upload returns are given as a list. The stage in which the client
  collects a file is kept with the rows of its chunks.
-/
import Foks.Client.Error
import Foks.Crypto.KvChunk

namespace Foks.Client

open Foks.Lib Foks.Snowpack Foks.Proto Foks.Crypto
open Foks.Verify (checkedAddU64 checkedAddU64_eq_some)

def maxKvFileBytes : UInt64 := 1024 * 1024 * 1024

def maxFileChunks : Nat := 4096

def maxChunkRecord : Nat := 8 * 1024 * 1024 + 128

/-! ## Uploads -/

section

variable (digest : Digest) (cipher : SecretboxCipher) (seed : FixedBytes 32) (file : KvNodeId)
  (expectedSize : Option UInt64)

/-- One round of the loop that prepares an upload: the sealed chunk, and the offset and the size of
    the ciphertexts after it. -/
def prepareChunk (offset encrypted : UInt64) (finalChunk : Bool) (clear : List UInt8) :
    Except Error (KvUploadChunk × UInt64 × UInt64) := do
  let next ← okOr (.operationBinding "upload length overflow")
    (checkedAddU64 offset (UInt64.ofNat clear.length))
  if next > maxKvFileBytes ∨ (next = maxKvFileBytes ∧ ¬ finalChunk) then
    .error (.operationBinding "upload exceeds FOKS file size limit")
  else
  let chunk ← (sealKvChunk digest cipher seed file offset finalChunk clear encrypted).mapError
    fun _ => .crypto
  let encrypted ← okOr (.operationBinding "upload ciphertext length overflow")
    (checkedAddU64 encrypted (UInt64.ofNat chunk.ciphertext.length))
  let encoded ← chunk.encode.mapError .protocol
  if maxChunkRecord < encoded.length then
    .error (.operationBinding "upload canonical chunk exceeds limit")
  else .ok (chunk, next, encrypted)

/-- The loop, over the chunk that was read and those that the reader still returns. -/
def prepareChunks (offset encrypted : UInt64) (clear : List UInt8) :
    List (List UInt8) → Except Error (List KvUploadChunk)
  | [] => do
    let (chunk, offset, _) ← prepareChunk digest cipher seed file offset encrypted true clear
    if expectedSize.any (· ≠ offset) then
      .error (.operationBinding "upload length does not match declared size")
    else .ok [chunk]
  | clear' :: rest => do
    let (chunk, offset, encrypted) ←
      prepareChunk digest cipher seed file offset encrypted false clear
    let chunks ← prepareChunks offset encrypted clear' rest
    .ok (chunk :: chunks)

end

/-- One chunk of a file: where it starts, whether it is the last one, and its bytes. -/
structure FilePart where
  offset : Nat
  finalChunk : Bool
  clear : List UInt8

/-- The chunks of a file from an offset on. -/
def fileParts (offset : Nat) : List (List UInt8) → List FilePart
  | [] => []
  | clear :: rest => ⟨offset, rest.isEmpty, clear⟩ :: fileParts (offset + clear.length) rest

/-- A part starts after all bytes before it, and nothing comes after the last one. -/
theorem mem_fileParts {chunks : List (List UInt8)} {offset : Nat} {part : FilePart}
    (h : part ∈ fileParts offset chunks) :
    ∃ before after, chunks = before ++ part.clear :: after ∧
      part.offset = offset + before.flatten.length ∧ part.finalChunk = after.isEmpty := by
  induction chunks generalizing offset with
  | nil => cases h
  | cons clear rest ih =>
    rcases List.mem_cons.mp h with rfl | h
    · exact ⟨[], rest, rfl, rfl, rfl⟩
    · obtain ⟨before, after, hrest, hoffset, hfinal⟩ := ih h
      refine ⟨clear :: before, after, by rw [hrest]; rfl, ?_, hfinal⟩
      rw [hoffset, List.flatten_cons, List.length_append]
      omega

section

variable (digest : Digest) (cipher : SecretboxCipher) (seed : FixedBytes 32) (file : KvNodeId)

/-- The ciphertext is what the cipher made of the part of the file, with the given nonce and
    plaintext. -/
structure SealedPart (part : FilePart) (nonce : FixedBytes 24) (plaintext ciphertext : List UInt8) :
    Prop where
  small : part.offset + part.clear.length ≤ maxKvFileBytes.toNat
  nonce_eq : nonce = chunkNonce digest file (UInt64.ofNat part.offset) part.finalChunk
  padded : kvChunkPlaintext part.clear = .ok plaintext
  encrypted : cipher.encrypt seed nonce plaintext = some ciphertext

end

section

variable {digest : Digest} {cipher : SecretboxCipher} {seed : FixedBytes 32} {file : KvNodeId}

variable {offset encrypted next encrypted' : UInt64}

/-- One round seals the part at its offset. -/
theorem prepareChunk_sealed {finalChunk : Bool} {clear : List UInt8} {chunk : KvUploadChunk}
    (h : prepareChunk digest cipher seed file offset encrypted finalChunk clear =
      .ok (chunk, next, encrypted')) :
    next.toNat = offset.toNat + clear.length ∧ ∃ nonce plaintext, SealedPart digest cipher seed
      file ⟨offset.toNat, finalChunk, clear⟩ nonce plaintext chunk.ciphertext := by
  obtain ⟨_, hnext, h⟩ := bind_eq_ok.mp h
  obtain ⟨hsmall, h⟩ := ite_error_eq_ok.mp h
  obtain ⟨_, hchunk, h⟩ := bind_eq_ok.mp h
  obtain ⟨_, -, h⟩ := bind_eq_ok.mp h
  obtain ⟨_, -, h⟩ := bind_eq_ok.mp h
  obtain ⟨-, h⟩ := ite_error_eq_ok.mp h
  cases h
  obtain ⟨padded, hpadded, hencrypt⟩ := sealKvChunk_eq_ok (mapError_eq_ok.mp hchunk)
  have hlength : clear.length < 2 ^ 64 := by
    have hlimit := kvChunkPlaintext_limit hpadded
    unfold binaryLength u32Max at hlimit
    omega
  have hnext : next.toNat = offset.toNat + clear.length := by
    rw [checkedAddU64_eq_some.mp (okOr_eq_ok.mp hnext), toNat_ofNat64 hlength]
  refine ⟨hnext, _, padded, ?_, by rw [UInt64.ofNat_toNat], hpadded, hencrypt⟩
  rw [← hnext]
  exact UInt64.le_iff_toNat_le.mp (UInt64.not_lt.mp (not_or.mp hsmall).1)

/-- An upload seals the parts of the file, one after the other. -/
theorem prepareChunks_sealed {expectedSize : Option UInt64} {clear : List UInt8}
    {rest : List (List UInt8)} {chunks : List KvUploadChunk}
    (h : prepareChunks digest cipher seed file expectedSize offset encrypted clear rest =
      .ok chunks) : List.Forall₂ (fun part (chunk : KvUploadChunk) => ∃ nonce plaintext,
        SealedPart digest cipher seed file part nonce plaintext chunk.ciphertext)
      (fileParts offset.toNat (clear :: rest)) chunks := by
  induction rest generalizing offset encrypted clear chunks with
  | nil =>
    obtain ⟨⟨chunk, next, _⟩, hchunk, h⟩ := bind_eq_ok.mp h
    obtain ⟨-, h⟩ := ite_error_eq_ok.mp h
    cases h
    exact .cons (prepareChunk_sealed hchunk).2 .nil
  | cons clear' rest ih =>
    obtain ⟨⟨chunk, next, _⟩, hchunk, h⟩ := bind_eq_ok.mp h
    obtain ⟨later, hlater, h⟩ := bind_eq_ok.mp h
    cases h
    obtain ⟨hnext, hsealed⟩ := prepareChunk_sealed hchunk
    refine .cons hsealed ?_
    rw [← hnext]
    exact ih hlater

/-- A file that was uploaded once. -/
structure UploadedFile (digest : Digest) (cipher : SecretboxCipher) where
  id : KvNodeId
  seed : FixedBytes 32
  first : List UInt8
  rest : List (List UInt8)
  expectedSize : Option UInt64
  chunks : List KvUploadChunk
  prepared : prepareChunks digest cipher seed id expectedSize 0 0 first rest = .ok chunks

namespace UploadedFile

section

variable (file : UploadedFile digest cipher)

def bytes : List UInt8 := (file.first :: file.rest).flatten

def parts : List FilePart :=
  fileParts 0 (file.first :: file.rest)

/-- What the upload of the file had sealed. -/
def Sealed (nonce : FixedBytes 24) (plaintext ciphertext : List UInt8) : Prop :=
  ∃ part ∈ file.parts, SealedPart digest cipher file.seed file.id part nonce plaintext ciphertext

/-- Every chunk that the upload returned is one of those it had sealed. -/
theorem chunk_sealed {chunk : KvUploadChunk} (h : chunk ∈ file.chunks) :
    ∃ nonce plaintext, file.Sealed nonce plaintext chunk.ciphertext := by
  obtain ⟨part, hpart, nonce, plaintext, hsealed⟩ :=
    exists_of_mem_forall₂ (prepareChunks_sealed file.prepared) h
  exact ⟨nonce, plaintext, part, hpart, hsealed⟩

end

end UploadedFile

/-- Ideal encryption, where nothing but the files was sealed: what opens under a key was sealed
    under it, with the same nonce. -/
def IdealCipher (files : List (UploadedFile digest cipher)) : Prop :=
  ∀ key nonce ciphertext plaintext, cipher.decrypt key nonce ciphertext = some plaintext →
    ∃ file ∈ files, file.seed = key ∧ file.Sealed nonce plaintext ciphertext

def DistinctSeeds (files : List (UploadedFile digest cipher)) : Prop :=
  ∀ file ∈ files, ∀ other ∈ files, file.seed = other.seed → file = other

/-! ## Downloads -/

structure KvLargeFileChunk where
  offset : UInt64
  content : List UInt8

/-- A file on its way into the client's store. -/
structure KvLargeFileStage where
  size : UInt64
  complete : Bool
  chunks : List KvLargeFileChunk

namespace KvLargeFileStage

def empty : KvLargeFileStage := ⟨0, false, []⟩

def content (stage : KvLargeFileStage) : List UInt8 := stage.chunks.flatMap (·.content)

def append (stage : KvLargeFileStage) (plaintext : List UInt8) : Except Error KvLargeFileStage := do
  if plaintext.isEmpty then .ok stage else
  let newSize ← okOr (.integerOutOfRange "KV staged file size")
    (checkedAddU64 stage.size (UInt64.ofNat plaintext.length))
  .ok { stage with size := newSize, chunks := stage.chunks ++ [⟨stage.size, plaintext⟩] }

def finish (stage : KvLargeFileStage) : KvLargeFileStage := { stage with complete := true }

end KvLargeFileStage

def validateLargeFileAppend (currentSize : UInt64) (chunkSize : Nat) : Except Error UInt64 := do
  if 2 ^ 64 ≤ chunkSize then .error (.kvResponse "file chunk size overflow") else
  let nextSize ← okOr (.kvResponse "file size overflow")
    (checkedAddU64 currentSize (UInt64.ofNat chunkSize))
  if nextSize > maxKvFileBytes then .error (.kvResponse "file size limit exceeded")
  else .ok nextSize

section

variable (digest : Digest) (cipher : SecretboxCipher) (fileSeed : FixedBytes 32) (file : KvNodeId)

/-- One round: the answer to the request for the chunk at the size of the stage. Returns whether the
    chunk was the last one. -/
def downloadChunk (stage : KvLargeFileStage) (chunkBytes : List UInt8) :
    Except Error (KvLargeFileStage × Bool) := do
  let chunk ← (KvEncryptedChunk.decode chunkBytes).mapError .protocol
  let clear ← (openKvChunk digest cipher fileSeed file stage.size chunk).mapError fun _ => .crypto
  if clear.isEmpty ∧ ¬ chunk.finalChunk then
    .error (.kvResponse "empty non-final file chunk")
  else
  let _ ← validateLargeFileAppend stage.size clear.length
  let stage ← stage.append clear
  .ok (stage, chunk.finalChunk)

/-- The rounds that are left. The answers of the server are given for each round and offset. -/
def downloadChunks (fetch : Nat → UInt64 → Except Error (List UInt8)) :
    (rounds : Nat) → KvLargeFileStage → Except Error KvLargeFileStage
  | 0, _ => .error (.kvResponse "file chunk limit exceeded")
  | rounds + 1, stage => do
    let chunkBytes ← fetch rounds stage.size
    let (stage, complete) ← downloadChunk digest cipher fileSeed file stage chunkBytes
    if complete then .ok stage else downloadChunks fetch rounds stage

def downloadFile (fetch : Nat → UInt64 → Except Error (List UInt8)) :
    Except Error KvLargeFileStage := do
  let stage ← downloadChunks digest cipher fileSeed file fetch maxFileChunks .empty
  .ok stage.finish

end

/-- The stage knows how many bytes it has. -/
def KvLargeFileStage.Sized (stage : KvLargeFileStage) : Prop :=
  stage.size.toNat = stage.content.length

variable {stage stage' : KvLargeFileStage}

theorem KvLargeFileStage.append_eq_ok {plaintext : List UInt8} (hsmall : plaintext.length < 2 ^ 64)
    (hsized : stage.Sized) (h : stage.append plaintext = .ok stage') :
    stage'.Sized ∧ stage'.content = stage.content ++ plaintext := by
  rcases ite_eq_ok h with ⟨hempty, h⟩ | ⟨-, h⟩
  · cases h
    rw [List.isEmpty_iff.mp hempty, List.append_nil]
    exact ⟨hsized, rfl⟩
  · obtain ⟨newSize, hsize, h⟩ := bind_eq_ok.mp h
    cases h
    have hcontent : content ⟨newSize, stage.complete, stage.chunks ++ [⟨stage.size, plaintext⟩]⟩ =
        stage.content ++ plaintext := by
      simp [content]
    refine ⟨?_, hcontent⟩
    show newSize.toNat = (content _).length
    rw [hcontent, checkedAddU64_eq_some.mp (okOr_eq_ok.mp hsize), hsized, List.length_append,
      toNat_ofNat64 hsmall]

theorem length_lt_of_validateLargeFileAppend {currentSize nextSize : UInt64} {chunkSize : Nat}
    (h : validateLargeFileAppend currentSize chunkSize = .ok nextSize) : chunkSize < 2 ^ 64 := by
  obtain ⟨hsize, -⟩ := ite_error_eq_ok.mp h
  exact Nat.not_le.mp hsize

/-- A round opens one chunk at the size of the stage and appends its bytes. -/
theorem downloadChunk_eq_ok {chunkBytes : List UInt8} {complete : Bool} (hsized : stage.Sized)
    (h : downloadChunk digest cipher seed file stage chunkBytes = .ok (stage', complete)) :
    ∃ chunk clear, openKvChunk digest cipher seed file stage.size chunk = .ok clear ∧
      complete = chunk.finalChunk ∧ stage'.Sized ∧ stage'.content = stage.content ++ clear := by
  obtain ⟨chunk, -, h⟩ := bind_eq_ok.mp h
  obtain ⟨clear, hopen, h⟩ := bind_eq_ok.mp h
  obtain ⟨-, h⟩ := ite_error_eq_ok.mp h
  obtain ⟨_, hvalid, h⟩ := bind_eq_ok.mp h
  obtain ⟨appended, happend, h⟩ := bind_eq_ok.mp h
  cases h
  obtain ⟨hsized', hcontent⟩ :=
    KvLargeFileStage.append_eq_ok (length_lt_of_validateLargeFileAppend hvalid) hsized happend
  exact ⟨chunk, clear, mapError_eq_ok.mp hopen, rfl, hsized', hcontent⟩

/-! ## What a download returns -/

section

variable {files : List (UploadedFile digest cipher)} {uploaded : UploadedFile digest cipher}

/-- Whatever opens as a chunk of the file at an offset is the part of the file there, marked as the
    last one if it is. -/
theorem openKvChunk_part (hideal : IdealCipher files) (hseeds : DistinctSeeds files)
    (hfile : uploaded ∈ files) (hnonces : DistinctNonces digest uploaded.id) {offset : UInt64}
    {chunk : KvEncryptedChunk} {clear : List UInt8}
    (h : openKvChunk digest cipher uploaded.seed uploaded.id offset chunk = .ok clear) :
    ∃ before after, uploaded.first :: uploaded.rest = before ++ clear :: after ∧
      offset.toNat = before.flatten.length ∧ chunk.finalChunk = after.isEmpty := by
  obtain ⟨plaintext, hdecrypt, hplain⟩ := openKvChunk_eq_ok h
  obtain ⟨other, hother, hseed, part, hpart, hsealed⟩ := hideal _ _ _ _ hdecrypt
  have hsame : other = uploaded := hseeds other hother uploaded hfile hseed
  subst hsame
  -- The nonce says which part it is, and the padded plaintext has only its bytes.
  obtain ⟨hoffset, hfinal⟩ := hnonces _ _ _ _ hsealed.nonce_eq
  have hclear : clear = part.clear :=
    Except.ok.inj (hplain.symm.trans (openPlaintext_of_padded hsealed.padded))
  obtain ⟨before, after, hchunks, hstart, hlast⟩ := mem_fileParts hpart
  refine ⟨before, after, by rw [hclear]; exact hchunks, ?_, by rw [hfinal, hlast]⟩
  have hsmall := hsealed.small
  have hmax : maxKvFileBytes.toNat < 2 ^ 64 := maxKvFileBytes.toNat_lt
  rw [hoffset, toNat_ofNat64 (by omega), hstart, Nat.zero_add]

/-- If the bytes so far are those the file starts with, a round keeps it so, and after the chunk
    marked as the last one they are all the bytes of the file. -/
theorem downloadChunk_bytes (hideal : IdealCipher files) (hseeds : DistinctSeeds files)
    (hfile : uploaded ∈ files) (hnonces : DistinctNonces digest uploaded.id)
    {chunkBytes : List UInt8} {complete : Bool} (hsized : stage.Sized)
    (hstart : stage.content <+: uploaded.bytes)
    (h : downloadChunk digest cipher uploaded.seed uploaded.id stage chunkBytes =
      .ok (stage', complete)) :
    stage'.Sized ∧ stage'.content <+: uploaded.bytes ∧
      (complete = true → stage'.content = uploaded.bytes) := by
  obtain ⟨chunk, clear, hopen, hcomplete, hsized', hcontent⟩ := downloadChunk_eq_ok hsized h
  obtain ⟨before, after, hchunks, hoffset, hfinal⟩ :=
    openKvChunk_part hideal hseeds hfile hnonces hopen
  have hbytes : uploaded.bytes = before.flatten ++ (clear ++ after.flatten) := by
    unfold UploadedFile.bytes
    rw [hchunks, List.flatten_append, List.flatten_cons]
  have hbefore : stage.content = before.flatten := by
    have hlength : stage.content.length = before.flatten.length := by rw [← hsized, hoffset]
    have hprefix : before.flatten <+: uploaded.bytes := ⟨_, hbytes.symm⟩
    exact (List.prefix_of_prefix_length_le hstart hprefix hlength.le).eq_of_length hlength
  refine ⟨hsized', ⟨after.flatten, ?_⟩, ?_⟩
  · rw [hcontent, hbefore, hbytes, List.append_assoc]
  · intro hlast
    have hafter : after = [] := List.isEmpty_iff.mp (by rw [← hfinal, ← hcomplete, hlast])
    rw [hcontent, hbefore, hbytes, hafter, List.flatten_nil, List.append_nil]

theorem downloadChunks_bytes (hideal : IdealCipher files) (hseeds : DistinctSeeds files)
    (hfile : uploaded ∈ files) (hnonces : DistinctNonces digest uploaded.id)
    {fetch : Nat → UInt64 → Except Error (List UInt8)} {rounds : Nat} (hsized : stage.Sized)
    (hstart : stage.content <+: uploaded.bytes)
    (h : downloadChunks digest cipher uploaded.seed uploaded.id fetch rounds stage = .ok stage') :
    stage'.Sized ∧ stage'.content = uploaded.bytes := by
  induction rounds generalizing stage with
  | zero => cases h
  | succ rounds ih =>
    obtain ⟨chunkBytes, -, h⟩ := bind_eq_ok.mp h
    obtain ⟨⟨next, complete⟩, hchunk, h⟩ := bind_eq_ok.mp h
    obtain ⟨hsized', hstart', hlast⟩ :=
      downloadChunk_bytes hideal hseeds hfile hnonces hsized hstart hchunk
    rcases ite_eq_ok h with ⟨hcomplete, h⟩ | ⟨-, h⟩
    · cases h
      exact ⟨hsized', hlast hcomplete⟩
    · exact ih hsized' hstart' h

/-- Whatever the server answers, a download that ends has exactly the bytes of the upload. -/
theorem download_eq_uploaded (hideal : IdealCipher files) (hseeds : DistinctSeeds files)
    (hfile : uploaded ∈ files) (hnonces : DistinctNonces digest uploaded.id)
    (fetch : Nat → UInt64 → Except Error (List UInt8)) {stage : KvLargeFileStage}
    (h : downloadFile digest cipher uploaded.seed uploaded.id fetch = .ok stage) :
    stage.complete = true ∧ stage.content = uploaded.bytes ∧
      stage.size.toNat = uploaded.bytes.length := by
  obtain ⟨last, hlast, h⟩ := bind_eq_ok.mp h
  cases h
  have hempty : KvLargeFileStage.empty.Sized := rfl
  obtain ⟨hsized, hbytes⟩ :=
    downloadChunks_bytes hideal hseeds hfile hnonces hempty List.nil_prefix hlast
  exact ⟨rfl, hbytes, by rw [← hbytes]; exact hsized⟩

end

end

/-! ## A download of two chunks -/

namespace FileSample

theorem digest_length (message : List UInt8) :
    ((message.drop 27 ++ List.replicate 32 0).take 32).length = 32 := by
  rw [List.length_take, List.length_append, List.length_replicate]
  omega

/-- Keeps the offset and the flag that follow the identifier of the file. -/
def digest : Digest := fun message => ⟨_, digest_length message⟩

def id : KvNodeId := ⟨KvNodeType.file.toByte, .replicate 16 7⟩

def seed : FixedBytes 32 := .replicate 32 9

def boxes : List (FixedBytes 24 × List UInt8) :=
  [(chunkNonce digest id 0 false, wire (.binary [1, 2]) ++ List.replicate 30 0),
    (chunkNonce digest id 2 true, wire (.binary [3]) ++ List.replicate 31 0)]

/-- Opens the two chunks of the file and nothing else. -/
def cipher : SecretboxCipher where
  encrypt _ _ plaintext := some plaintext
  decrypt key nonce ciphertext :=
    if key = seed ∧ (nonce, ciphertext) ∈ boxes then some ciphertext else none

theorem prepared_eq : prepareChunks digest cipher seed id none 0 0 [1, 2] [[3]] =
    .ok [⟨wire (.binary [1, 2]) ++ List.replicate 30 0, 0, none⟩,
      ⟨wire (.binary [3]) ++ List.replicate 31 0, 2, some ⟨68, .replicate 32 0⟩⟩] := by
  decide +kernel

def uploaded : UploadedFile digest cipher := ⟨id, seed, [1, 2], [[3]], none, _, prepared_eq⟩

theorem padded_eq : kvChunkPlaintext [1, 2] = .ok (wire (.binary [1, 2]) ++ List.replicate 30 0) ∧
    kvChunkPlaintext [3] = .ok (wire (.binary [3]) ++ List.replicate 31 0) := by
  decide +kernel

theorem ideal : IdealCipher [uploaded] := by
  intro key nonce ciphertext plaintext h
  obtain ⟨⟨rfl, hbox⟩, hplain⟩ := Option.ite_none_right_eq_some.mp h
  cases hplain
  refine ⟨uploaded, List.mem_singleton.mpr rfl, rfl, ?_⟩
  rcases List.mem_cons.mp hbox with hfirst | hbox
  · cases hfirst
    exact ⟨⟨0, false, [1, 2]⟩, List.mem_cons_self, by decide, rfl, padded_eq.1, rfl⟩
  · cases List.mem_singleton.mp hbox
    exact ⟨⟨2, true, [3]⟩, List.mem_cons_of_mem _ List.mem_cons_self, by decide, rfl, padded_eq.2,
      rfl⟩

theorem distinctSeeds : DistinctSeeds [uploaded] := by
  intro file hfile other hother _
  rw [List.mem_singleton.mp hfile, List.mem_singleton.mp hother]

theorem wire_unsigned_length (offset : UInt64) : (wire (.unsigned offset)).length ≤ 9 := by
  show (unsignedBytes offset).length ≤ 9
  unfold unsignedBytes
  repeat' split
  all_goals simp

theorem nonceHead_length : (toBE 8 kvChunkNoncePayloadTypeId.toNat ++
    (arrayHeader 3 ++ wire (.binary id.object.bytes))).length = 27 := by
  decide +kernel

theorem hashInput_drop (offset : UInt64) (finalChunk : Bool) :
    (hashInput kvChunkNoncePayloadTypeId (wire (kvChunkNonceValue id offset finalChunk))).drop 27 =
      wire (.unsigned offset) ++ wire (.bool finalChunk) := by
  have hsplit : hashInput kvChunkNoncePayloadTypeId
      (wire (kvChunkNonceValue id offset finalChunk)) =
        (toBE 8 kvChunkNoncePayloadTypeId.toNat ++
          (arrayHeader 3 ++ wire (.binary id.object.bytes))) ++
            (wire (.unsigned offset) ++ wire (.bool finalChunk)) := by
    simp [hashInput, kvChunkNonceValue, wire, wires]
  rw [hsplit]
  exact List.drop_left' nonceHead_length

/-- The nonce starts with the encoded offset, and the flag comes next. -/
theorem chunkNonce_bytes (offset : UInt64) (finalChunk : Bool) :
    ∃ zeros, (chunkNonce digest id offset finalChunk).bytes =
      wire (.unsigned offset) ++ (wire (.bool finalChunk) ++ zeros) := by
  have hlength := wire_unsigned_length offset
  have hflag : (wire (.bool finalChunk)).length = 1 := by cases finalChunk <;> rfl
  have hbytes : (chunkNonce digest id offset finalChunk).bytes =
      (((hashInput kvChunkNoncePayloadTypeId
        (wire (kvChunkNonceValue id offset finalChunk))).drop 27 ++
          List.replicate 32 0).take 32).take 24 := rfl
  rw [hashInput_drop, List.take_take, List.append_assoc, List.take_append,
    List.take_of_length_le (by omega), List.take_append,
    List.take_of_length_le (by omega)] at hbytes
  exact ⟨_, hbytes⟩

theorem distinctNonces : DistinctNonces digest id := by
  intro offset finalChunk offset' finalChunk' h
  obtain ⟨zeros, hbytes⟩ := chunkNonce_bytes offset finalChunk
  obtain ⟨zeros', hbytes'⟩ := chunkNonce_bytes offset' finalChunk'
  rw [h, hbytes'] at hbytes
  have hcod (offset : UInt64) : Codable (.unsigned offset) :=
    ⟨Nat.zero_le _, by simp [Value.size, maximumDecodedValues]⟩
  have hread := decodePrefix_wire (hcod offset') (wire (.bool finalChunk') ++ zeros')
  rw [hbytes, decodePrefix_wire (hcod offset)] at hread
  cases hread
  refine ⟨rfl, ?_⟩
  have hflags := List.append_cancel_left hbytes
  cases finalChunk <;> cases finalChunk' <;> first | rfl | cases hflags

def chunkBytes (offset : UInt64) : List UInt8 :=
  if offset = 0 then
    wire (.array [.binary (wire (.binary [1, 2]) ++ List.replicate 30 0), .unsigned 0, .bool false])
  else
    wire (.array [.binary (wire (.binary [3]) ++ List.replicate 31 0), .unsigned 2, .bool true])

def answer (_ : Nat) (offset : UInt64) : Except Error (List UInt8) := .ok (chunkBytes offset)

/-- The two chunks, asked for one after the other, are the file. -/
theorem download_two_chunks : ∃ stage, downloadFile digest cipher seed id answer = .ok stage ∧
    stage.complete = true ∧ stage.content = [1, 2, 3] ∧ stage.size.toNat = 3 := by
  have hok : (downloadFile digest cipher seed id answer).isOk = true := by decide +kernel
  cases h : downloadFile digest cipher seed id answer with
  | error e =>
    rw [h] at hok
    cases hok
  | ok stage =>
    exact ⟨stage, rfl, download_eq_uploaded ideal distinctSeeds (List.mem_singleton.mpr rfl)
      distinctNonces answer h⟩

end FileSample

end Foks.Client
