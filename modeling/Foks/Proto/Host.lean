/-
  The host chain, the public zone and the probe response on the wire (`foks-proto`, `host.rs`).

  A link of the host chain holds an inner blob with a change, and signatures: one of each key that
  the change adds, and one of the key that signs the change. Only host keys sign; what a change
  enters as a TLS CA is of that kind.
-/
import Foks.Proto.Identity
import Mathlib.Data.List.ReduceOption

namespace Foks.Proto

open Foks.Lib Foks.Snowpack Foks.Crypto

def hostchainLinkOuterV1TypeId : UInt64 := 0xa23ba3620d758f7a
def hostchainLinkOuterTypeId : UInt64 := 0x8d87ac224920355c
def merkleRootBlobTypeId : UInt64 := 0xa22f0c0921d4e651
def publicZoneBlobTypeId : UInt64 := 0xd4f1ec4f90eb2c6d

/-! ## Signed blobs -/

structure SignedBlob where
  inner : List UInt8
  signature : Signature
  deriving DecidableEq

namespace SignedBlob

def value (blob : SignedBlob) : Value := .array [.binary blob.inner, blob.signature.toValue]

def ofValue (value : Value) : Except Error SignedBlob := do
  let fields ← array value 2
  let inner ← binary (fields.getD 0 .null)
  let signature ← Proto.signature (fields.getD 1 .null)
  .ok ⟨inner, signature⟩

def decode (bytes : List UInt8) : Except Error SignedBlob := do
  let value ← decodeValue bytes
  ofValue value

def encoded (blob : SignedBlob) : Except Error (List UInt8) := encodeValue blob.value

end SignedBlob

/-! ## The host chain -/

structure BaseChainer where
  seqno : UInt64
  previous : Option Hash
  root : TreeRoot
  time : UInt64
  deriving DecidableEq

inductive HostchainChangeItem where
  | revoke (key : EntityId)
  | key (key : EntityId)
  | tlsCa (id : EntityId) (certificate : List UInt8)
  deriving DecidableEq

structure HostchainChange where
  chainer : BaseChainer
  host : EntityId
  signer : EntityId
  changes : List HostchainChangeItem
  deriving DecidableEq

structure HostchainLink where
  inner : List UInt8
  signatures : List Signature
  deriving DecidableEq

/-- An item of a kind that is not known is left out. -/
def changeItem (value : Value) : Except Error (Option HostchainChangeItem) := do
  let fields ← array value 2
  let changeType ← unsigned (fields.getD 0 .null)
  if changeType = 1 then do
    let payload ← variant (fields.getD 1 .null) [0x31]
    let key ← entity payload
    .ok (some (.revoke key))
  else if changeType = 2 then do
    let payload ← variant (fields.getD 1 .null) [0x32]
    let key ← entity payload
    .ok (some (.key key))
  else if changeType = 3 then do
    let payload ← variant (fields.getD 1 .null) [0x33]
    let ca ← array payload 2
    let id ← entityOf entityHostTlsCa (ca.getD 0 .null)
    let certificate ← binary (ca.getD 1 .null)
    .ok (some (.tlsCa id certificate))
  else .ok none

def changeItems (value : Value) : Except Error (List HostchainChangeItem) := do
  let items ← list value changeItem
  .ok items.reduceOption

def hostchainChange (value : Value) : Except Error HostchainChange := do
  let fields ← arrayAtLeast value 4
  let chainer ← array (fields.getD 0 .null) 4
  let root ← array (chainer.getD 2 .null) 2
  let seqno ← unsigned (chainer.getD 0 .null)
  let previous ← option (chainer.getD 1 .null) (fun v => fixedBlob 32 v "previous link hash")
  let epoch ← unsigned (root.getD 0 .null)
  let hash ← fixedBlob 32 (root.getD 1 .null) "Merkle root hash"
  let time ← unsigned (chainer.getD 3 .null)
  let host ← entityOf entityHost (fields.getD 1 .null)
  let signer ← entityOf entityHost (fields.getD 2 .null)
  let changes ← changeItems (fields.getD 3 .null)
  .ok ⟨⟨seqno, previous, ⟨epoch, hash⟩, time⟩, host, signer, changes⟩

namespace HostchainLink

def toValue (link : HostchainLink) : Value :=
  .array [.unsigned 1, .variant [0x31] (.array [.binary link.inner,
    listValue (link.signatures.map Signature.toValue)])]

def ofValue (value : Value) : Except Error HostchainLink := do
  let fields ← array value 2
  expectUnsigned (fields.getD 0 .null) "hostchain link version" 1
  let body ← variant (fields.getD 1 .null) [0x31]
  let v1 ← array body 2
  let inner ← binary (v1.getD 0 .null)
  let signatures ← list (v1.getD 1 .null) signature
  .ok ⟨inner, signatures⟩

def encoded (link : HostchainLink) : Except Error (List UInt8) := encodeValue link.toValue

/-- The bytes a signature covers: the inner blob and the signatures before it. -/
def signingBytes (link : HostchainLink) (signatureCount : Nat) : Except Error (List UInt8) :=
  if signatureCount > link.signatures.length then
    .error (.length "signature prefix" link.signatures.length signatureCount)
  else
    encodeValue (.array [.binary link.inner,
      listValue ((link.signatures.take signatureCount).map Signature.toValue)])

def decodeChange (link : HostchainLink) : Except Error HostchainChange := do
  let inner ← decodeValue link.inner
  let fields ← array inner 2
  expectUnsigned (fields.getD 0 .null) "hostchain link type" 1
  let body ← variant (fields.getD 1 .null) [0x31]
  hostchainChange body

end HostchainLink

/-- The host chain as it is stored. -/
def decodeHostchain (bytes : List UInt8) : Except Error (List HostchainLink) := do
  let value ← decodeValue bytes
  list value HostchainLink.ofValue

/-! ## The public zone and the probe response -/

inductive ServiceType where
  | registration
  | user
  | merkleQuery
  | probe
  | kvStore
  | realtime
  deriving DecidableEq

def ServiceType.protocolValue : ServiceType → UInt64
  | .registration => 1
  | .user => 2
  | .merkleQuery => 5
  | .probe => 10
  | .kvStore => 12
  | .realtime => 16

/-- The addresses of the services, as the bytes of their texts. -/
structure PublicServices where
  probe : List UInt8
  registration : List UInt8
  user : List UInt8
  merkleQuery : List UInt8
  kvStore : List UInt8
  realtime : List UInt8
  deriving DecidableEq

def PublicServices.entries (services : PublicServices) : List (ServiceType × List UInt8) :=
  [(.probe, services.probe), (.registration, services.registration), (.user, services.user),
    (.merkleQuery, services.merkleQuery), (.kvStore, services.kvStore),
    (.realtime, services.realtime)]

structure PublicZone where
  ttlSeconds : Int64
  services : PublicServices
  deriving DecidableEq

/-- Zones that predate the realtime service have five addresses. -/
def PublicZone.decode (bytes : List UInt8) : Except Error PublicZone := do
  let wire ← decodeValue bytes
  let fields ← array wire 2
  match fields.getD 1 .null with
  | .array services =>
    if services.length < 5 then .error (.fieldCount 5 services.length)
    else do
      let realtime ← match services[5]? with
        | some value => text value
        | none => .ok []
      let ttlSeconds ← integer (fields.getD 0 .null)
      let probe ← text (services.getD 0 .null)
      let registration ← text (services.getD 1 .null)
      let user ← text (services.getD 2 .null)
      let merkleQuery ← text (services.getD 3 .null)
      let kvStore ← text (services.getD 4 .null)
      .ok ⟨ttlSeconds, ⟨probe, registration, user, merkleQuery, kvStore, realtime⟩⟩
  | other => .error (typeError "public zone services array" other)

structure ProbeResponse where
  merkleRoot : SignedBlob
  publicZone : SignedBlob
  hostchain : List HostchainLink
  deriving DecidableEq

namespace ProbeResponse

def decode (bytes : List UInt8) : Except Error ProbeResponse := do
  let wire ← decodeValue bytes
  let fields ← arrayAtLeast wire 3
  let merkleRoot ← SignedBlob.ofValue (fields.getD 0 .null)
  let publicZone ← SignedBlob.ofValue (fields.getD 1 .null)
  let hostchain ← list (fields.getD 2 .null) HostchainLink.ofValue
  .ok ⟨merkleRoot, publicZone, hostchain⟩

def encodedHostchain (probe : ProbeResponse) : Except Error (List UInt8) :=
  encodeValue (.array (probe.hostchain.map HostchainLink.toValue))

end ProbeResponse

/-! ## Reading back -/

variable {bytes : List UInt8}

theorem binary_eq_ok {value : Value} : binary value = .ok bytes ↔ value = .binary bytes := by
  cases value <;> simp [binary]

theorem signature_toValue (sig : Signature) : signature sig.toValue = .ok sig := by
  cases sig with
  | ed25519 bytes =>
    refine bind_of_ok (array_eq_ok.mpr ⟨rfl, rfl⟩) ?_
    refine bind_eq_ok.mpr ⟨0, rfl, ?_⟩
    refine bind_of_ok (variant_eq_ok.mpr rfl) ?_
    exact bind_eq_ok.mpr ⟨bytes, fixedBlob_eq_ok.mpr rfl, rfl⟩
  | ecdsa bytes =>
    refine bind_of_ok (array_eq_ok.mpr ⟨rfl, rfl⟩) ?_
    refine bind_eq_ok.mpr ⟨1, rfl, ?_⟩
    exact bind_of_ok (variant_eq_ok.mpr rfl) rfl

theorem signature_eq_ok {value : Value} {sig : Signature} :
    signature value = .ok sig ↔ value = sig.toValue := by
  constructor
  · intro h
    obtain ⟨fields, hfields, hrest⟩ := bind_eq_ok.mp h
    obtain ⟨rfl, hlen⟩ := array_eq_ok.mp hfields
    obtain ⟨kind, payload, rfl⟩ := List.length_eq_two.mp hlen
    obtain ⟨signatureType, htype, hkind⟩ := bind_eq_ok.mp hrest
    obtain rfl := unsigned_eq_ok.mp htype
    rcases ite_eq_ok hkind with ⟨rfl, h⟩ | ⟨-, h⟩
    · obtain ⟨inner, hinner, h⟩ := bind_eq_ok.mp h
      obtain ⟨bytes, hbytes, h⟩ := bind_eq_ok.mp h
      cases h
      obtain rfl := variant_eq_ok.mp hinner
      obtain rfl := fixedBlob_eq_ok.mp hbytes
      rfl
    · rcases ite_eq_ok h with ⟨rfl, h⟩ | ⟨-, h⟩
      · obtain ⟨inner, hinner, h⟩ := bind_eq_ok.mp h
        obtain ⟨bytes, hbytes, h⟩ := bind_eq_ok.mp h
        cases h
        obtain rfl := variant_eq_ok.mp hinner
        obtain rfl := binary_eq_ok.mp hbytes
        rfl
      · cases h
  · rintro rfl
    exact signature_toValue sig

theorem SignedBlob.ofValue_eq_ok {value : Value} {blob : SignedBlob} :
    ofValue value = .ok blob ↔ value = blob.value := by
  constructor
  · intro h
    obtain ⟨fields, hfields, hrest⟩ := bind_eq_ok.mp h
    obtain ⟨rfl, hlen⟩ := array_eq_ok.mp hfields
    obtain ⟨first, second, rfl⟩ := List.length_eq_two.mp hlen
    obtain ⟨inner, hinner, hlast⟩ := bind_eq_ok.mp hrest
    obtain ⟨sig, hsig, hblob⟩ := bind_eq_ok.mp hlast
    cases hblob
    obtain rfl := binary_eq_ok.mp hinner
    obtain rfl := signature_eq_ok.mp hsig
    rfl
  · rintro rfl
    refine bind_of_ok (array_eq_ok.mpr ⟨rfl, rfl⟩) ?_
    refine bind_eq_ok.mpr ⟨blob.inner, rfl, ?_⟩
    exact bind_eq_ok.mpr ⟨blob.signature, signature_toValue _, rfl⟩

theorem SignedBlob.decode_eq_ok {blob : SignedBlob} :
    decode bytes = .ok blob ↔ Codable blob.value ∧ bytes = wire blob.value := by
  rw [decode, bind_eq_ok]
  constructor
  · rintro ⟨value, hvalue, h⟩
    obtain rfl := ofValue_eq_ok.mp h
    exact decodeValue_eq_ok.mp hvalue
  · rintro ⟨hcod, rfl⟩
    exact ⟨_, decodeValue_eq_ok.mpr ⟨hcod, rfl⟩, ofValue_eq_ok.mpr rfl⟩

theorem HostchainLink.ofValue_toValue (link : HostchainLink) : ofValue link.toValue = .ok link := by
  refine bind_of_ok (array_eq_ok.mpr ⟨rfl, rfl⟩) ?_
  refine bind_eq_ok.mpr ⟨(), expectUnsigned_eq_ok.mpr rfl, ?_⟩
  refine bind_of_ok (variant_eq_ok.mpr rfl) ?_
  refine bind_of_ok (array_eq_ok.mpr ⟨rfl, rfl⟩) ?_
  refine bind_eq_ok.mpr ⟨link.inner, rfl, ?_⟩
  exact bind_eq_ok.mpr ⟨link.signatures,
    list_listValue (fun sig _ => signature_toValue sig), rfl⟩

variable {id : EntityId}

theorem entityOf_type {kind : UInt8} {value : Value} (h : entityOf kind value = .ok id) :
    id.entityType = kind := by
  obtain ⟨read, -, h⟩ := bind_eq_ok.mp h
  obtain ⟨hkind, rfl⟩ := EntityId.requireType_eq_ok.mp h
  exact hkind

theorem changeItem_tlsCa {value : Value} {certificate : List UInt8}
    (h : changeItem value = .ok (some (.tlsCa id certificate))) :
    id.entityType = entityHostTlsCa := by
  obtain ⟨fields, -, h⟩ := bind_eq_ok.mp h
  obtain ⟨changeType, -, h⟩ := bind_eq_ok.mp h
  rcases ite_eq_ok h with ⟨-, h⟩ | ⟨-, h⟩
  · obtain ⟨payload, -, h⟩ := bind_eq_ok.mp h
    obtain ⟨key, -, h⟩ := bind_eq_ok.mp h
    cases h
  · rcases ite_eq_ok h with ⟨-, h⟩ | ⟨-, h⟩
    · obtain ⟨payload, -, h⟩ := bind_eq_ok.mp h
      obtain ⟨key, -, h⟩ := bind_eq_ok.mp h
      cases h
    · rcases ite_eq_ok h with ⟨-, h⟩ | ⟨-, h⟩
      · obtain ⟨payload, -, h⟩ := bind_eq_ok.mp h
        obtain ⟨ca, -, h⟩ := bind_eq_ok.mp h
        obtain ⟨read, hread, h⟩ := bind_eq_ok.mp h
        obtain ⟨bytes, -, h⟩ := bind_eq_ok.mp h
        cases h
        exact entityOf_type hread
      · cases h

theorem changeItems_tlsCa {value : Value} {items : List HostchainChangeItem}
    (h : changeItems value = .ok items) {certificate : List UInt8}
    (hitem : .tlsCa id certificate ∈ items) : id.entityType = entityHostTlsCa := by
  obtain ⟨found, hfound, h⟩ := bind_eq_ok.mp h
  cases h
  rw [List.reduceOption_mem_iff] at hitem
  rcases list_eq_ok.mp hfound with ⟨-, rfl⟩ | ⟨values, -, hvalues⟩
  · cases hitem
  · obtain ⟨value, -, hvalue⟩ := exists_of_mem_mapM hvalues hitem
    exact changeItem_tlsCa hvalue

/-- The signed blobs of a probe response that is read can be written again. -/
theorem ProbeResponse.decode_codable {probe : ProbeResponse} (h : decode bytes = .ok probe) :
    Codable probe.merkleRoot.value := by
  obtain ⟨wire, hwire, h⟩ := bind_eq_ok.mp h
  obtain ⟨fields, hfields, h⟩ := bind_eq_ok.mp h
  obtain ⟨merkleRoot, hroot, h⟩ := bind_eq_ok.mp h
  obtain ⟨publicZone, -, h⟩ := bind_eq_ok.mp h
  obtain ⟨hostchain, -, h⟩ := bind_eq_ok.mp h
  cases h
  obtain ⟨hcod, -⟩ := decodeValue_eq_ok.mp hwire
  obtain ⟨rfl, hlen⟩ := arrayAtLeast_eq_ok.mp hfields
  rw [← SignedBlob.ofValue_eq_ok.mp hroot]
  obtain ⟨first, rest, rfl⟩ := List.exists_cons_of_length_pos (show 0 < fields.length by omega)
  exact hcod.of_mem List.mem_cons_self

/-- The stored host chain is read back as it was written. -/
theorem decodeHostchain_encoded {links read : List HostchainLink}
    (hbytes : encodeValue (.array (links.map HostchainLink.toValue)) = .ok bytes)
    (h : decodeHostchain bytes = .ok read) : read = links := by
  obtain ⟨value, hvalue, hlist⟩ := bind_eq_ok.mp h
  obtain ⟨hcod, rfl⟩ := decodeValue_eq_ok.mp hvalue
  obtain rfl := encode_inj hcod.encode_eq (mapError_eq_ok.mp hbytes)
  rcases list_eq_ok.mp hlist with ⟨hnull, -⟩ | ⟨values, hvalues, hread⟩
  · cases hnull
  · cases hvalues
    have hback : (links.map HostchainLink.toValue).mapM HostchainLink.ofValue = .ok links := by
      rw [mapM_eq_ok_iff, List.forall₂_map_left_iff]
      exact List.forall₂_same.mpr fun link _ => link.ofValue_toValue
    exact Except.ok.inj (hread.symm.trans hback)

/-- Only host keys sign, and what is entered as a TLS CA is one. -/
theorem HostchainLink.decodeChange_kinds {link : HostchainLink} {change : HostchainChange}
    (h : link.decodeChange = .ok change) :
    change.signer.entityType = entityHost ∧
    ∀ id certificate, .tlsCa id certificate ∈ change.changes → id.entityType = entityHostTlsCa := by
  obtain ⟨inner, -, h⟩ := bind_eq_ok.mp h
  obtain ⟨fields, -, h⟩ := bind_eq_ok.mp h
  obtain ⟨_, -, h⟩ := bind_eq_ok.mp h
  obtain ⟨body, -, h⟩ := bind_eq_ok.mp h
  obtain ⟨fields, -, h⟩ := bind_eq_ok.mp h
  obtain ⟨chainer, -, h⟩ := bind_eq_ok.mp h
  obtain ⟨root, -, h⟩ := bind_eq_ok.mp h
  obtain ⟨seqno, -, h⟩ := bind_eq_ok.mp h
  obtain ⟨previous, -, h⟩ := bind_eq_ok.mp h
  obtain ⟨epoch, -, h⟩ := bind_eq_ok.mp h
  obtain ⟨hash, -, h⟩ := bind_eq_ok.mp h
  obtain ⟨time, -, h⟩ := bind_eq_ok.mp h
  obtain ⟨host, -, h⟩ := bind_eq_ok.mp h
  obtain ⟨signer, hsigner, h⟩ := bind_eq_ok.mp h
  obtain ⟨changes, hchanges, h⟩ := bind_eq_ok.mp h
  cases h
  exact ⟨entityOf_type hsigner, fun id certificate hitem => changeItems_tlsCa hchanges hitem⟩

end Foks.Proto
