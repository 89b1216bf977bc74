/-
  The chunks of large files (`foks-crypto`, `kv.rs`).

  A chunk is sealed under the seed of its file. Its nonce is a hash of the file, the offset of the
  chunk and whether it is the last one, and its plaintext is the encoded bytes, padded with zeros.
  The nonce of a chunk can always be computed (`kvChunkNonce_eq`), the length of a plaintext is
  given by the size class of the bytes (`kvChunkPlaintext_length`), and a plaintext that was padded
  for some bytes gives back these bytes (`openPlaintext_of_padded`).

  The authenticated cipher is a parameter, like the hash.
-/
import Foks.Crypto.Signatures
import Foks.Proto.Kv

namespace Foks.Crypto

open Foks.Lib Foks.Snowpack Foks.Proto

/-- The authenticated cipher, XSalsa20-Poly1305: both directions take the key and the nonce. -/
structure SecretboxCipher where
  encrypt : FixedBytes 32 → FixedBytes 24 → List UInt8 → Option (List UInt8)
  decrypt : FixedBytes 32 → FixedBytes 24 → List UInt8 → Option (List UInt8)

def kvChunkNoncePayloadTypeId : UInt64 := 0xadba174b7e8dcc08

/-! ## Nonces -/

def kvChunkNonceValue (fileId : KvNodeId) (offset : UInt64) (finalChunk : Bool) : Value :=
  .array [.binary fileId.object.bytes, .unsigned offset, .bool finalChunk]

theorem nonceBytes_length (hash : Hash) : (hash.bytes.take 24).length = 24 := by
  rw [List.length_take, hash.size_eq]
  rfl

section

variable (digest : Digest) (fileId : KvNodeId) (offset : UInt64) (finalChunk : Bool)

def kvChunkNonce : Except Error (FixedBytes 24) := do
  let nonceValue ← (encode (kvChunkNonceValue fileId offset finalChunk)).mapError .snowpack
  let hash ← (prefixedHashSignable digest kvChunkNoncePayloadTypeId nonceValue).mapError .snowpack
  .ok ⟨hash.bytes.take 24, nonceBytes_length hash⟩

/-- The first 24 bytes of the hash. -/
def chunkNonce : FixedBytes 24 :=
  ⟨_, nonceBytes_length (prefixedHash digest kvChunkNoncePayloadTypeId
    (wire (kvChunkNonceValue fileId offset finalChunk)))⟩

theorem codable_kvChunkNonceValue : Codable (kvChunkNonceValue fileId offset finalChunk) := by
  have hid := fileId.object.size_eq
  refine ⟨?_, ?_⟩
  · simp [kvChunkNonceValue, Fits, FitsAll, maxDepth, u32Max, hid]
  · simp [kvChunkNonceValue, Value.size, Value.sizes, maximumDecodedValues]

theorem signable_kvChunkNonceValue : Signable (kvChunkNonceValue fileId offset finalChunk) := by
  simp [kvChunkNonceValue, Signable, SignableAll]

/-- The nonce of a chunk can always be computed. -/
theorem kvChunkNonce_eq : kvChunkNonce digest fileId offset finalChunk =
      .ok (chunkNonce digest fileId offset finalChunk) := by
  have hcod := codable_kvChunkNonceValue fileId offset finalChunk
  have hhash := prefixedHashSignable_wire digest kvChunkNoncePayloadTypeId hcod
    (signable_kvChunkNonceValue fileId offset finalChunk)
  unfold kvChunkNonce
  rw [hcod.encode_eq]
  show ((prefixedHashSignable digest kvChunkNoncePayloadTypeId
    (wire (kvChunkNonceValue fileId offset finalChunk))).mapError Error.snowpack >>= _) = _
  rw [hhash]
  rfl

/-- Chunks of the file at different offsets, or only one of which is the last, have different
    nonces. -/
def DistinctNonces : Prop :=
  ∀ offset finalChunk offset' finalChunk',
    chunkNonce digest fileId offset finalChunk = chunkNonce digest fileId offset' finalChunk' →
      offset = offset' ∧ finalChunk = finalChunk'

/-! ## Padding -/

/-- The loop over the sizes. The index is how often the base can be doubled within 64 bits. -/
def paddedLengthFrom (length : Nat) : (doublings base : Nat) → Except Error Nat
  | doublings, base =>
    let overhead := if 0x10000 ≤ base then 5 else if 0x100 ≤ base then 3 else 2
    if length ≤ base + overhead then .ok (base + overhead)
    else
      match doublings with
      | 0 => .error .kvPadding
      | doublings + 1 => paddedLengthFrom length doublings (base * 2)

variable (length : Nat)

/-- The smallest of the sizes that the encoded bytes fit into. From `2 ^ 5` the base can be doubled
    58 times. -/
def kvChunkPaddedLength : Except Error Nat :=
  if u32Max < length then .error .kvPadding else paddedLengthFrom length 58 32

/-- The size class of a chunk: the least power of two that is not below its length, from 32 on. -/
def sizeClass : Nat := max 32 (2 ^ Nat.clog 2 length)

theorem sizeClass_mono {length length' : Nat} (h : length ≤ length') :
    sizeClass length ≤ sizeClass length' :=
  max_le_max_left 32 (Nat.pow_le_pow_right (by omega) (Nat.clog_mono_right 2 h))

theorem le_sizeClass : length ≤ sizeClass length :=
  (Nat.le_pow_clog (by omega) length).trans (le_max_right _ _)

/-- Length of the encoding of `length` bytes. -/
def binaryLength : Nat := length + (binaryHeader length).length

theorem binaryLength_eq : binaryLength length =
      length + if 0x10000 ≤ length then 5 else if 0x100 ≤ length then 3 else 2 := by
  unfold binaryLength binaryHeader lenHeader
  split_ifs <;> simp [toBE_length] <;> omega

theorem binaryLength_le_iff {length length' : Nat} :
    binaryLength length ≤ binaryLength length' ↔ length ≤ length' := by
  rw [binaryLength_eq, binaryLength_eq]
  split_ifs <;> omega

theorem sizeClass_eq {length exponent : Nat} (hbase : 2 ^ exponent ≤ sizeClass length)
    (hstart : 5 ≤ exponent) (hfits : length ≤ 2 ^ exponent) : sizeClass length = 2 ^ exponent := by
  refine le_antisymm (max_le ?_ ?_) hbase
  · show 2 ^ 5 ≤ 2 ^ exponent
    exact Nat.pow_le_pow_right (by omega) hstart
  · exact Nat.pow_le_pow_right (by omega) (Nat.clog_le_of_le_pow hfits)

/-- From a power of two that is not above the class, with enough doublings left, the loop stops at
    the class: the overhead it adds to a base is the header of the base. -/
theorem paddedLengthFrom_eq {length doublings exponent : Nat}
    (hbase : 2 ^ exponent ≤ sizeClass length) (hstart : 5 ≤ exponent)
    (hend : sizeClass length ≤ 2 ^ (exponent + doublings)) :
    paddedLengthFrom (binaryLength length) doublings (2 ^ exponent) =
      .ok (binaryLength (sizeClass length)) := by
  unfold paddedLengthFrom
  simp only [← binaryLength_eq, binaryLength_le_iff]
  by_cases hfits : length ≤ 2 ^ exponent
  · rw [if_pos hfits, sizeClass_eq hbase hstart hfits]
  · rw [if_neg hfits]
    have hclog : exponent + 1 ≤ Nat.clog 2 length := by
      rw [Nat.succ_le_iff, Nat.lt_clog_iff_pow_lt (by omega)]
      omega
    have hnext : 2 ^ (exponent + 1) ≤ sizeClass length :=
      (Nat.pow_le_pow_right (by omega) hclog).trans (le_max_right _ _)
    cases doublings with
    | zero =>
      rw [Nat.pow_succ] at hnext
      have := Nat.two_pow_pos exponent
      rw [Nat.add_zero] at hend
      omega
    | succ doublings =>
      exact paddedLengthFrom_eq hnext (by omega) (by rwa [Nat.add_right_comm, Nat.add_assoc])

/-- An encoding within 32 bits is padded to the encoded length of its size class. -/
theorem kvChunkPaddedLength_eq {length : Nat} (h : binaryLength length ≤ u32Max) :
    kvChunkPaddedLength (binaryLength length) = .ok (binaryLength (sizeClass length)) := by
  have hlength : length ≤ 2 ^ 32 := by
    unfold binaryLength u32Max at h
    omega
  rw [kvChunkPaddedLength, if_neg (by omega)]
  refine @paddedLengthFrom_eq length 58 5 (le_max_left _ _) (le_refl _) (max_le (by decide) ?_)
  exact Nat.pow_le_pow_right (by omega) ((Nat.clog_le_of_le_pow hlength).trans (by omega))

/-- What is given to the cipher for the bytes of a chunk. -/
def kvChunkPlaintext (cleartext : List UInt8) : Except Error (List UInt8) := do
  let encoded ← (encode (.binary cleartext)).mapError .snowpack
  let paddedLength ← kvChunkPaddedLength encoded.length
  .ok (encoded ++ List.replicate (paddedLength - encoded.length) 0)

def requireZeroPadding (plaintext : List UInt8) (consumed : Nat) : Except Error Unit :=
  if (plaintext.drop consumed).any (· ≠ 0) then .error .kvPadding else .ok ()

/-- The bytes of a chunk, from what the cipher returned. -/
def openPlaintext (plaintext : List UInt8) : Except Error (List UInt8) := do
  let (value, consumed) ← (decodePrefix plaintext).mapError .snowpack
  requireZeroPadding plaintext consumed
  match value with
  | .binary bytes => .ok bytes
  | _ => .error .kvBinding

theorem wire_binary_length (bytes : List UInt8) :
    (wire (.binary bytes)).length = binaryLength bytes.length := by
  rw [wire, List.length_append, binaryLength, Nat.add_comm]

variable {cleartext : List UInt8}

/-- What a plaintext is: the encoding, padded to the encoded length of the size class. -/
theorem kvChunkPlaintext_eq (h : binaryLength cleartext.length ≤ u32Max) :
    Codable (.binary cleartext) ∧ kvChunkPlaintext cleartext =
      .ok (wire (.binary cleartext) ++ List.replicate
        (binaryLength (sizeClass cleartext.length) - binaryLength cleartext.length) 0) := by
  have hcod : Codable (.binary cleartext) := by
    refine ⟨⟨Nat.zero_le _, ?_⟩, by simp [Value.size, maximumDecodedValues]⟩
    exact (Nat.le_add_right _ _).trans h
  refine ⟨hcod, ?_⟩
  unfold kvChunkPlaintext
  rw [hcod.encode_eq]
  show (kvChunkPaddedLength (wire (.binary cleartext)).length >>= _) = _
  rw [wire_binary_length, kvChunkPaddedLength_eq h]
  rfl

variable {plaintext : List UInt8}

section

variable (h : kvChunkPlaintext cleartext = .ok plaintext)
include h

theorem kvChunkPlaintext_limit : binaryLength cleartext.length ≤ u32Max := by
  obtain ⟨encoded, hencoded, h⟩ := bind_eq_ok.mp h
  obtain ⟨padded, hpadded, -⟩ := bind_eq_ok.mp h
  obtain ⟨-, rfl⟩ := encode_eq_ok (mapError_eq_ok.mp hencoded)
  obtain ⟨hle, -⟩ := ite_error_eq_ok.mp hpadded
  rw [wire_binary_length] at hle
  omega

theorem kvChunkPlaintext_length :
    plaintext.length = binaryLength (sizeClass cleartext.length) ∧
      (wire (.binary cleartext)).length ≤ plaintext.length := by
  have heq := (kvChunkPlaintext_eq (kvChunkPlaintext_limit h)).2
  obtain rfl := Except.ok.inj (heq.symm.trans h)
  have hle := binaryLength_le_iff.mpr (le_sizeClass cleartext.length)
  rw [List.length_append, List.length_replicate, wire_binary_length]
  omega

/-- The bytes a plaintext was made for are read out of it. -/
theorem openPlaintext_of_padded : openPlaintext plaintext = .ok cleartext := by
  obtain ⟨hcod, heq⟩ := kvChunkPlaintext_eq (kvChunkPlaintext_limit h)
  obtain rfl := Except.ok.inj (heq.symm.trans h)
  have hzeros (count : Nat) : requireZeroPadding (wire (.binary cleartext) ++
      List.replicate count 0) (wire (.binary cleartext)).length = .ok () :=
    if_neg (by simp)
  unfold openPlaintext
  rw [decodePrefix_wire hcod]
  show (requireZeroPadding _ _ >>= _) = _
  rw [hzeros]
  rfl

end

/-! ## Sealing and opening -/

def sealKvChunk (cipher : SecretboxCipher) (fileSeed : FixedBytes 32) (fileId : KvNodeId)
    (offset : UInt64) (finalChunk : Bool) (cleartext : List UInt8) (encryptedSizeBefore : UInt64) :
    Except Error KvUploadChunk := do
  let padded ← kvChunkPlaintext cleartext
  let nonce ← kvChunkNonce digest fileId offset finalChunk
  let ciphertext ← okOr .kvEncryption (cipher.encrypt fileSeed nonce padded)
  if 2 ^ 64 ≤ encryptedSizeBefore.toNat + ciphertext.length then .error .kvPadding else
  let encryptedSize := encryptedSizeBefore + UInt64.ofNat ciphertext.length
  .ok ⟨ciphertext, offset, if finalChunk then some ⟨encryptedSize, .replicate 32 0⟩ else none⟩

def openKvChunk (cipher : SecretboxCipher) (fileSeed : FixedBytes 32) (fileId : KvNodeId)
    (requestedOffset : UInt64) (chunk : KvEncryptedChunk) : Except Error (List UInt8) := do
  if chunk.offset ≠ requestedOffset then .error .kvBinding else
  let nonce ← kvChunkNonce digest fileId requestedOffset chunk.finalChunk
  let plaintext ← okOr .decryption (cipher.decrypt fileSeed nonce chunk.ciphertext)
  openPlaintext plaintext

end

variable {digest : Digest} {cipher : SecretboxCipher} {fileSeed : FixedBytes 32}
  {fileId : KvNodeId}

theorem sealKvChunk_eq_ok {offset encryptedSizeBefore : UInt64} {finalChunk : Bool}
    {chunk : KvUploadChunk}
    (h : sealKvChunk digest cipher fileSeed fileId offset finalChunk cleartext
      encryptedSizeBefore = .ok chunk) : ∃ padded, kvChunkPlaintext cleartext = .ok padded ∧
      cipher.encrypt fileSeed (chunkNonce digest fileId offset finalChunk) padded =
        some chunk.ciphertext := by
  obtain ⟨padded, hpadded, h⟩ := bind_eq_ok.mp h
  rw [kvChunkNonce_eq, ok_bind] at h
  obtain ⟨ciphertext, hcipher, h⟩ := bind_eq_ok.mp h
  obtain ⟨-, h⟩ := ite_error_eq_ok.mp h
  cases h
  exact ⟨padded, hpadded, okOr_eq_ok.mp hcipher⟩

/-- A chunk that was opened was decrypted with the nonce of the requested offset. -/
theorem openKvChunk_eq_ok {requestedOffset : UInt64} {chunk : KvEncryptedChunk}
    (h : openKvChunk digest cipher fileSeed fileId requestedOffset chunk = .ok cleartext) :
    ∃ plaintext, cipher.decrypt fileSeed
        (chunkNonce digest fileId requestedOffset chunk.finalChunk) chunk.ciphertext =
          some plaintext ∧
      openPlaintext plaintext = .ok cleartext := by
  obtain ⟨-, h⟩ := ite_error_eq_ok.mp h
  rw [kvChunkNonce_eq, ok_bind] at h
  obtain ⟨plaintext, hplain, h⟩ := bind_eq_ok.mp h
  exact ⟨plaintext, okOr_eq_ok.mp hplain, h⟩

/-- Padding hides all but the size class, and it is undone. A cleartext has a plaintext as long as
    its encoding is within 32 bits; the length of the plaintext is that of the encoding of as many
    bytes as the size class says, which covers the encoding and grows with the cleartext; and what
    was sealed opens to the cleartext, if the cipher decrypts what it has encrypted. -/
theorem kvChunk_padding (digest : Digest) (cipher : SecretboxCipher)
    (hcipher : ∀ key nonce plaintext ciphertext, cipher.encrypt key nonce plaintext =
      some ciphertext → cipher.decrypt key nonce ciphertext = some plaintext)
    (fileSeed : FixedBytes 32) (fileId : KvNodeId) (offset encryptedSizeBefore : UInt64)
    (finalChunk : Bool) (cleartext : List UInt8)
    (hlimit : (wire (.binary cleartext)).length ≤ u32Max) :
    (∃ plaintext, kvChunkPlaintext cleartext = .ok plaintext ∧
      plaintext.length = sizeClass cleartext.length +
        (binaryHeader (sizeClass cleartext.length)).length ∧
      (wire (.binary cleartext)).length ≤ plaintext.length ∧
      (∀ shorter, shorter.length ≤ cleartext.length → ∃ plaintext',
        kvChunkPlaintext shorter = .ok plaintext' ∧ plaintext'.length ≤ plaintext.length) ∧
      (∀ ciphertext,
        cipher.encrypt fileSeed (chunkNonce digest fileId offset finalChunk) plaintext =
          some ciphertext → encryptedSizeBefore.toNat + ciphertext.length < 2 ^ 64 →
        ∃ chunk, sealKvChunk digest cipher fileSeed fileId offset finalChunk cleartext
          encryptedSizeBefore = .ok chunk)) ∧
    ∀ chunk, sealKvChunk digest cipher fileSeed fileId offset finalChunk cleartext
        encryptedSizeBefore = .ok chunk →
      openKvChunk digest cipher fileSeed fileId offset ⟨chunk.ciphertext, offset, finalChunk⟩ =
        .ok cleartext := by
  rw [wire_binary_length] at hlimit
  obtain ⟨hcod, hplaintext⟩ := kvChunkPlaintext_eq hlimit
  obtain ⟨hlength, hcovers⟩ := kvChunkPlaintext_length hplaintext
  refine ⟨⟨_, hplaintext, hlength, hcovers, fun shorter hshorter => ?_,
    fun ciphertext hencrypt hsize => ?_⟩, fun chunk hseal => ?_⟩
  · have hbound := (binaryLength_le_iff.mpr hshorter).trans hlimit
    refine ⟨_, (kvChunkPlaintext_eq hbound).2, ?_⟩
    rw [(kvChunkPlaintext_length (kvChunkPlaintext_eq hbound).2).1, hlength]
    exact binaryLength_le_iff.mpr (sizeClass_mono hshorter)
  · unfold sealKvChunk
    rw [hplaintext, ok_bind, kvChunkNonce_eq, ok_bind, hencrypt]
    exact ⟨_, if_neg (Nat.not_le.mpr hsize)⟩
  · obtain ⟨plaintext, hpadded, hencrypt⟩ := sealKvChunk_eq_ok hseal
    unfold openKvChunk
    rw [if_neg (by simp), kvChunkNonce_eq, ok_bind, hcipher _ _ _ _ hencrypt]
    exact openPlaintext_of_padded hpadded

/-- A box is the key, the nonce and the bytes, and opens under its key and nonce only. -/
def openBoxes : SecretboxCipher where
  encrypt key nonce bytes := some (key.bytes ++ nonce.bytes ++ bytes)
  decrypt key nonce box :=
    if box.take 56 = key.bytes ++ nonce.bytes then some (box.drop 56) else none

theorem openBoxes_decrypt (key : FixedBytes 32) (nonce : FixedBytes 24)
    (plaintext ciphertext : List UInt8)
    (h : openBoxes.encrypt key nonce plaintext = some ciphertext) :
    openBoxes.decrypt key nonce ciphertext = some plaintext := by
  have hlength : (key.bytes ++ nonce.bytes).length = 56 := by simp [key.size_eq, nonce.size_eq]
  cases h
  show (if _ then some (List.drop 56 (key.bytes ++ nonce.bytes ++ plaintext)) else none) = _
  rw [← hlength, List.take_left, if_pos rfl, List.drop_left]

/-- Bytes that end in a zero are told from the padding. -/
theorem kvChunk_padding_trailing_zero :
    let digest : Digest := fun _ => .replicate 32 3
    let fileId : KvNodeId := ⟨1, .replicate 16 0⟩
    (kvChunkPlaintext [7, 0]).map List.length = .ok 34 ∧
      ∃ chunk, sealKvChunk digest openBoxes (.replicate 32 9) fileId 0 true [7, 0] 0 = .ok chunk ∧
        openKvChunk digest openBoxes (.replicate 32 9) fileId 0 ⟨chunk.ciphertext, 0, true⟩ =
          .ok [7, 0] := by
  intro digest fileId
  obtain ⟨⟨plaintext, hplaintext, hlength, -, -, hseal⟩, hopen⟩ := kvChunk_padding digest openBoxes
    openBoxes_decrypt (.replicate 32 9) fileId 0 0 true [7, 0] (by decide)
  have hclass : sizeClass [(7 : UInt8), 0].length + (binaryHeader (sizeClass 2)).length = 34 := by
    decide +kernel
  have hlength : plaintext.length = 34 := hlength.trans hclass
  obtain ⟨chunk, hchunk⟩ := hseal _ rfl (by simp [hlength, FixedBytes.size_eq])
  refine ⟨?_, chunk, hchunk, hopen chunk hchunk⟩
  rw [hplaintext]
  exact congrArg Except.ok hlength

end Foks.Crypto
