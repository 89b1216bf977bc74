/-
  The KV objects that client and server look into (`foks-proto`, `kv.rs`): node identifiers,
  directories and their entries, small-file boxes and version vectors.

  An entry that was encoded is decoded to the same entry (`KvDirent.decode_encode`); the server
  stores entries encoded and the client reads them so.
-/
import Foks.Proto.KeyBoxes
import Foks.Proto.LinkCodec

namespace Foks.Proto

open Foks.Lib Foks.Snowpack

inductive KvNodeType where
  | none
  | directory
  | file
  | smallFile
  | symlink
  deriving DecidableEq

/-- The discriminant. -/
def KvNodeType.toByte : KvNodeType → UInt8
  | .none => 0
  | .directory => 1
  | .file => 2
  | .smallFile => 3
  | .symlink => 4

def KvNodeType.ofByte (value : UInt8) : Except Error KvNodeType :=
  if value = 0 then .ok .none
  else if value = 1 then .ok .directory
  else if value = 2 then .ok .file
  else if value = 3 then .ok .smallFile
  else if value = 4 then .ok .symlink
  else .error (.unknownEnum "KV node type" value.toUInt64)

/-- The seventeen bytes of a node identifier: the kind of the node and the identifier of the object.
    The node of a removed entry is all zeros. -/
structure KvNodeId where
  kind : UInt8
  object : FixedBytes 16
  deriving DecidableEq

namespace KvNodeId

def ofBytes (bytes : FixedBytes 17) : KvNodeId :=
  ⟨bytes.bytes.headD 0, ⟨bytes.bytes.drop 1, by rw [List.length_drop, bytes.size_eq]⟩⟩

def nodeType (id : KvNodeId) : Except Error KvNodeType := KvNodeType.ofByte id.kind

/-- The node of a removed entry. -/
def tombstone : KvNodeId := ⟨0, .replicate 16 0⟩

/-- The node that is a directory. -/
def directory (id : FixedBytes 16) : KvNodeId := ⟨KvNodeType.directory.toByte, id⟩

def isDirectory (id : KvNodeId) : Bool := id.kind = KvNodeType.directory.toByte

theorem directory_inj {a b : FixedBytes 16} (h : directory a = directory b) : a = b :=
  congrArg object h

theorem isDirectory_iff {id : KvNodeId} : id.isDirectory = true ↔ id = directory id.object := by
  obtain ⟨kind, object⟩ := id
  simp [isDirectory, directory]

theorem isDirectory_directory (id : FixedBytes 16) : (directory id).isDirectory = true :=
  decide_eq_true rfl

def bytes (id : KvNodeId) : FixedBytes 17 :=
  ⟨id.kind :: id.object.bytes, by rw [List.length_cons, id.object.size_eq]⟩

theorem ofBytes_bytes (id : KvNodeId) : ofBytes id.bytes = id := rfl

end KvNodeId

inductive KvDirectoryStatus where
  | active
  | encrypting
  | dead
  deriving DecidableEq

structure RoleAndGeneration where
  role : Role
  generation : UInt64
  deriving DecidableEq

structure KvDirectory where
  id : FixedBytes 16
  version : UInt64
  key : RoleAndGeneration
  seedCiphertext : List UInt8
  writeRole : Role
  status : KvDirectoryStatus
  deriving DecidableEq

/-- A directory, and its next version while it is encrypted again. -/
structure KvDirectoryPair where
  active : KvDirectory
  encrypting : Option KvDirectory
  deriving DecidableEq

structure KvDirent where
  parent : FixedBytes 16
  id : FixedBytes 16
  value : KvNodeId
  version : UInt64
  directoryVersion : UInt64
  writeRole : Role
  nameMac : FixedBytes 32
  nameBox : SecretBox
  directoryStatus : KvDirectoryStatus
  bindingMac : FixedBytes 32
  creationTime : UInt64
  exact : List UInt8
  deriving DecidableEq

structure KvSmallFileBox where
  key : RoleAndGeneration
  ciphertext : List UInt8
  deriving DecidableEq

structure KvDirentVersion where
  id : FixedBytes 16
  version : UInt64
  deriving DecidableEq

structure KvDirectoryVersion where
  id : FixedBytes 16
  version : UInt64
  entries : List KvDirentVersion
  deriving DecidableEq

/-- The versions of the objects an operation relies on. -/
structure KvPathVersionVector where
  rootVersion : UInt64
  directories : List KvDirectoryVersion
  deriving DecidableEq

/-- A chunk of a large file, as the server returns it. -/
structure KvEncryptedChunk where
  ciphertext : List UInt8
  offset : UInt64
  finalChunk : Bool
  deriving DecidableEq

structure KvUploadFinal where
  size : UInt64
  chunkSum : FixedBytes 32
  deriving DecidableEq

/-- A chunk of a large file, as a client uploads it. -/
structure KvUploadChunk where
  ciphertext : List UInt8
  offset : UInt64
  finalUpload : Option KvUploadFinal
  deriving DecidableEq

/-! ## Readers -/

section

variable (value : Value)

def roleAndGeneration : Except Error RoleAndGeneration := do
  let fields ← array value 2
  let keyRole ← role (fields.getD 0 .null)
  let generation ← unsigned (fields.getD 1 .null)
  .ok ⟨keyRole, generation⟩

def kvDirectoryStatus : Except Error KvDirectoryStatus := do
  let status ← unsigned value
  if status = 0 then .ok .active
  else if status = 1 then .ok .encrypting
  else if status = 2 then .ok .dead
  else .error (.unknownEnum "KV directory status" status)

def kvDirectory : Except Error KvDirectory := do
  let fields ← array value 5
  let seedBox ← array (fields.getD 2 .null) 2
  let id ← fixedBlob 16 (fields.getD 0 .null) "KV directory ID"
  let version ← unsigned (fields.getD 1 .null)
  let key ← roleAndGeneration (seedBox.getD 0 .null)
  let seedCiphertext ← binary (seedBox.getD 1 .null)
  let writeRole ← role (fields.getD 3 .null)
  let status ← kvDirectoryStatus (fields.getD 4 .null)
  .ok ⟨id, version, key, seedCiphertext, writeRole, status⟩

def KvDirectory.decode (bytes : List UInt8) : Except Error KvDirectory := do
  let value ← decodeValue bytes
  kvDirectory value

def kvNodeId : Except Error KvNodeId := do
  let bytes ← fixedBlob 17 value "KV node ID"
  let _ ← (KvNodeId.ofBytes bytes).nodeType
  .ok (.ofBytes bytes)

def kvDirent : Except Error KvDirent := do
  let fields ← array value 11
  let parent ← fixedBlob 16 (fields.getD 0 .null) "KV dirent parent"
  let id ← fixedBlob 16 (fields.getD 1 .null) "KV dirent ID"
  let node ← kvNodeId (fields.getD 2 .null)
  let version ← unsigned (fields.getD 3 .null)
  let directoryVersion ← unsigned (fields.getD 4 .null)
  let writeRole ← role (fields.getD 5 .null)
  let nameMac ← fixedBlob 32 (fields.getD 6 .null) "KV name MAC"
  let nameBox ← secretBox (fields.getD 7 .null)
  let directoryStatus ← kvDirectoryStatus (fields.getD 8 .null)
  let bindingMac ← fixedBlob 32 (fields.getD 9 .null) "KV dirent binding MAC"
  let creationTime ← unsigned (fields.getD 10 .null)
  let exact ← encodeValue value
  .ok ⟨parent, id, node, version, directoryVersion, writeRole, nameMac, nameBox, directoryStatus,
    bindingMac, creationTime, exact⟩

def KvDirent.decode (bytes : List UInt8) : Except Error KvDirent := do
  let value ← decodeValue bytes
  kvDirent value

def kvSmallFileBox : Except Error KvSmallFileBox := do
  let fields ← array value 2
  let key ← roleAndGeneration (fields.getD 0 .null)
  let ciphertext ← binary (fields.getD 1 .null)
  .ok ⟨key, ciphertext⟩

end

namespace KvSmallFileBox

def decode (bytes : List UInt8) : Except Error KvSmallFileBox := do
  let value ← decodeValue bytes
  kvSmallFileBox value

def ciphertextLength (exact : List UInt8) : Except Error Nat := do
  let box ← decode exact
  .ok box.ciphertext.length

end KvSmallFileBox

/-! ## Writers -/

def SecretBox.toValue (box : SecretBox) : Value :=
  .array [.unsigned 0, .variant [0x30] (.array [.binary box.nonce.bytes, .binary box.ciphertext])]

def RoleAndGeneration.toValue (key : RoleAndGeneration) : Value :=
  .array [key.role.toValue, .unsigned key.generation]

def KvDirectoryStatus.toValue : KvDirectoryStatus → Value
  | .active => .unsigned 0
  | .encrypting => .unsigned 1
  | .dead => .unsigned 2

namespace KvDirectory

def toValue (directory : KvDirectory) : Value :=
  .array [.binary directory.id.bytes, .unsigned directory.version,
    .array [directory.key.toValue, .binary directory.seedCiphertext],
    directory.writeRole.toValue, directory.status.toValue]

def encode (directory : KvDirectory) : Except Error (List UInt8) := encodeValue directory.toValue

end KvDirectory

namespace KvDirent

def toValue (dirent : KvDirent) : Value :=
  .array [.binary dirent.parent.bytes, .binary dirent.id.bytes, .binary dirent.value.bytes.bytes,
    .unsigned dirent.version, .unsigned dirent.directoryVersion, dirent.writeRole.toValue,
    .binary dirent.nameMac.bytes, dirent.nameBox.toValue, dirent.directoryStatus.toValue,
    .binary dirent.bindingMac.bytes, .unsigned dirent.creationTime]

def encode (dirent : KvDirent) : Except Error (List UInt8) := encodeValue dirent.toValue

/-- `KvDirent::new`: the entry with its own encoding. -/
def sealed (dirent : KvDirent) : Except Error KvDirent := do
  let _ ← dirent.value.nodeType
  let exact ← dirent.encode
  .ok { dirent with exact }

def setCreationTime (dirent : KvDirent) (creationTime : UInt64) : Except Error KvDirent := do
  let exact ← { dirent with creationTime }.encode
  .ok { dirent with creationTime, exact }

/-- A listing may leave the parent out; the request says which it is. -/
def bindListParent (dirent : KvDirent) (parent : FixedBytes 16) : Except Error KvDirent :=
  if dirent.parent ≠ .replicate 16 0 ∧ dirent.parent ≠ parent then
    .error (.integerRange "KV dirent parent")
  else do
    let exact ← { dirent with parent }.encode
    .ok { dirent with parent, exact }

end KvDirent

/-! ## Writing and reading again -/

theorem secretBox_toValue (box : SecretBox) : secretBox box.toValue = .ok box := by
  refine bind_of_ok (array_eq_ok.mpr ⟨rfl, rfl⟩) ?_
  refine bind_eq_ok.mpr ⟨(), rfl, ?_⟩
  refine bind_of_ok (variant_eq_ok.mpr rfl) ?_
  refine bind_of_ok (array_eq_ok.mpr ⟨rfl, rfl⟩) ?_
  refine bind_of_ok (fixedBlob_eq_ok.mpr rfl) ?_
  exact bind_of_ok rfl rfl

theorem kvDirectoryStatus_toValue (status : KvDirectoryStatus) :
    kvDirectoryStatus status.toValue = .ok status := by
  cases status <;> rfl

variable {kind : KvNodeType}

theorem kvNodeId_bytes {id : KvNodeId} (h : id.nodeType = .ok kind) :
    kvNodeId (.binary id.bytes.bytes) = .ok id := by
  refine bind_eq_ok.mpr ⟨id.bytes, fixedBlob_eq_ok.mpr rfl, ?_⟩
  rw [KvNodeId.ofBytes_bytes]
  exact bind_eq_ok.mpr ⟨kind, h, rfl⟩

theorem Role.size_toValue (role : Role) : role.toValue.size ≤ 4 := by
  unfold Role.toValue
  cases role with
  | member visibility =>
    dsimp only
    split <;> simp [Value.size, Value.sizes]
  | none | admin | owner => simp [Value.size, Value.sizes]

theorem KvDirectoryStatus.size_toValue (status : KvDirectoryStatus) : status.toValue.size = 1 := by
  cases status <;> rfl

variable {exact : List UInt8}

namespace KvDirectory

theorem size_toValue (directory : KvDirectory) :
    directory.toValue.size ≤ maximumDecodedValues := by
  have hwrite := directory.writeRole.size_toValue
  have hkey := directory.key.role.size_toValue
  have hstatus := directory.status.size_toValue
  simp only [toValue, RoleAndGeneration.toValue, Value.size, Value.sizes, hstatus]
  unfold maximumDecodedValues
  omega

theorem decode_encode {directory : KvDirectory} (hexact : directory.encode = .ok exact) :
    decode exact = .ok directory := by
  have hvalue : decodeValue exact = .ok directory.toValue :=
    (ReadsLink.decodeValue_of_encodeValue hexact).mpr directory.size_toValue
  refine bind_of_ok hvalue ?_
  refine bind_of_ok (array_eq_ok.mpr ⟨rfl, rfl⟩) ?_
  refine bind_of_ok (array_eq_ok.mpr ⟨rfl, rfl⟩) ?_
  refine bind_of_ok (fixedBlob_eq_ok.mpr rfl) ?_
  refine bind_of_ok rfl ?_
  refine bind_eq_ok.mpr ⟨directory.key, ?_, ?_⟩
  · refine bind_of_ok (array_eq_ok.mpr ⟨rfl, rfl⟩) ?_
    refine bind_of_ok (reads_role.read_write _ trivial) ?_
    exact bind_of_ok rfl rfl
  refine bind_of_ok rfl ?_
  refine bind_of_ok (reads_role.read_write _ trivial) ?_
  exact bind_of_ok (kvDirectoryStatus_toValue _) rfl

end KvDirectory

variable {dirent result : KvDirent}

namespace KvDirent

theorem size_toValue (dirent : KvDirent) : dirent.toValue.size ≤ maximumDecodedValues := by
  have hrole := dirent.writeRole.size_toValue
  have hstatus := dirent.directoryStatus.size_toValue
  simp only [toValue, SecretBox.toValue, Value.size, Value.sizes, hstatus]
  unfold maximumDecodedValues
  omega

theorem kvDirent_toValue (hkind : dirent.value.nodeType = .ok kind)
    (hexact : dirent.encode = .ok exact) : kvDirent dirent.toValue = .ok { dirent with exact } := by
  refine bind_of_ok (array_eq_ok.mpr ⟨rfl, rfl⟩) ?_
  refine bind_of_ok (fixedBlob_eq_ok.mpr rfl) ?_
  refine bind_of_ok (fixedBlob_eq_ok.mpr rfl) ?_
  refine bind_of_ok (kvNodeId_bytes hkind) ?_
  refine bind_of_ok rfl ?_
  refine bind_of_ok rfl ?_
  refine bind_of_ok (reads_role.read_write _ trivial) ?_
  refine bind_of_ok (fixedBlob_eq_ok.mpr rfl) ?_
  refine bind_of_ok (secretBox_toValue _) ?_
  refine bind_of_ok (kvDirectoryStatus_toValue _) ?_
  refine bind_of_ok (fixedBlob_eq_ok.mpr rfl) ?_
  refine bind_of_ok rfl ?_
  exact bind_eq_ok.mpr ⟨exact, hexact, rfl⟩

theorem decode_encode (hkind : dirent.value.nodeType = .ok kind)
    (hexact : dirent.encode = .ok exact) : decode exact = .ok { dirent with exact } := by
  have hvalue : decodeValue exact = .ok dirent.toValue :=
    (ReadsLink.decodeValue_of_encodeValue hexact).mpr dirent.size_toValue
  exact bind_of_ok hvalue (kvDirent_toValue hkind hexact)

/-- The entry carries its own encoding, and its node is of a known kind. -/
def IsSealed (dirent : KvDirent) : Prop :=
  (∃ kind, dirent.value.nodeType = .ok kind) ∧ dirent.encode = .ok dirent.exact

theorem IsSealed.decode_exact (h : dirent.IsSealed) : decode dirent.exact = .ok dirent := by
  obtain ⟨⟨_, hkind⟩, hexact⟩ := h
  exact decode_encode hkind hexact

theorem sealed_eq_ok (h : dirent.sealed = .ok result) :
    result.IsSealed ∧ ∃ exact, result = { dirent with exact } := by
  obtain ⟨kind, hkind, h⟩ := bind_eq_ok.mp h
  obtain ⟨exact, hexact, h⟩ := bind_eq_ok.mp h
  cases h
  exact ⟨⟨⟨kind, hkind⟩, hexact⟩, exact, rfl⟩

/-- Only the time changes when the server sets it. -/
theorem setCreationTime_eq_ok {creationTime : UInt64} (hsealed : dirent.IsSealed)
    (h : dirent.setCreationTime creationTime = .ok result) :
    result.IsSealed ∧ ∃ exact, result = { dirent with creationTime, exact } := by
  obtain ⟨exact, hexact, h⟩ := bind_eq_ok.mp h
  cases h
  exact ⟨⟨hsealed.1, hexact⟩, exact, rfl⟩

end KvDirent

/-! ## Chunks of large files -/

namespace KvEncryptedChunk

def decode (bytes : List UInt8) : Except Error KvEncryptedChunk := do
  let value ← decodeValue bytes
  let fields ← array value 3
  let ciphertext ← binary (fields.getD 0 .null)
  let offset ← unsigned (fields.getD 1 .null)
  let finalChunk ← boolean (fields.getD 2 .null)
  .ok ⟨ciphertext, offset, finalChunk⟩

end KvEncryptedChunk

namespace KvUploadChunk

def kvUploadFinal (value : Value) : Except Error KvUploadFinal := do
  let fields ← array value 2
  let size ← unsigned (fields.getD 0 .null)
  let chunkSum ← fixedBlob 32 (fields.getD 1 .null) "KV upload chunk sum"
  .ok ⟨size, chunkSum⟩

def decode (bytes : List UInt8) : Except Error KvUploadChunk := do
  let value ← decodeValue bytes
  let fields ← array value 3
  let finalUpload ← option (fields.getD 2 .null) kvUploadFinal
  let ciphertext ← binary (fields.getD 0 .null)
  let offset ← unsigned (fields.getD 1 .null)
  .ok ⟨ciphertext, offset, finalUpload⟩

def toValue (chunk : KvUploadChunk) : Value :=
  .array [.binary chunk.ciphertext, .unsigned chunk.offset,
    chunk.finalUpload.elim .null fun final =>
      .array [.unsigned final.size, .binary final.chunkSum.bytes]]

def encode (chunk : KvUploadChunk) : Except Error (List UInt8) := encodeValue chunk.toValue

end KvUploadChunk

end Foks.Proto
