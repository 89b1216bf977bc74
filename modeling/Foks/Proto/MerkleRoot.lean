/-
  Merkle roots and historical responses on the wire (`foks-proto`, `host.rs`).

  A root is a version and a tagged record: epoch, time, the hash of the back pointers, the root
  node, the hostchain tail, and extension fields that are kept as they came.
  `MerkleRoot.decode_eq_ok` says which bytes decode to a root; nothing else decodes to it.
-/
import Foks.Proto.Codec
import Foks.Crypto.PrefixedHash

namespace Foks.Proto

open Foks.Lib Foks.Snowpack Foks.Crypto

def merkleRootTypeId : UInt64 := 0xa88fc49b6df3a111

def merkleBackPointersTypeId : UInt64 := 0x8c7c4b855fba9000

structure HostchainTail where
  seqno : UInt64
  hash : Hash
  deriving DecidableEq

structure MerkleRoot where
  epoch : UInt64
  time : UInt64
  backPointers : Hash
  rootNode : Hash
  hostchain : HostchainTail
  extensions : List Value
  deriving DecidableEq

variable {root : MerkleRoot}

namespace MerkleRoot

/-- The Snowpack value of a root. -/
def value (root : MerkleRoot) : Value :=
  .array [.unsigned 1, .variant [0x31] (.array ([.unsigned root.epoch, .unsigned root.time,
    .binary root.backPointers.bytes, .binary root.rootNode.bytes,
    .array [.unsigned root.hostchain.seqno, .binary root.hostchain.hash.bytes]] ++
    root.extensions))]

/-- The reading of a decoded value. -/
def ofValue (wire : Value) : Except Error MerkleRoot := do
  let fields ← array wire 2
  expectUnsigned (fields.getD 0 .null) "Merkle root version" 1
  let body ← variant (fields.getD 1 .null) [0x31]
  let v1 ← arrayAtLeast body 5
  let tail ← array (v1.getD 4 .null) 2
  let epoch ← unsigned (v1.getD 0 .null)
  if epoch = 0 then .error (.integerRange "Merkle epoch")
  else do
    let time ← unsigned (v1.getD 1 .null)
    let backPointers ← fixedBlob 32 (v1.getD 2 .null) "Merkle back-pointer hash"
    let rootNode ← fixedBlob 32 (v1.getD 3 .null) "Merkle root node"
    let seqno ← unsigned (tail.getD 0 .null)
    let hash ← fixedBlob 32 (tail.getD 1 .null) "hostchain tail hash"
    .ok ⟨epoch, time, backPointers, rootNode, ⟨seqno, hash⟩, v1.drop 5⟩

def decode (bytes : List UInt8) : Except Error MerkleRoot := do
  let wire ← decodeValue bytes
  ofValue wire

def encoded (root : MerkleRoot) : Except Error (List UInt8) := encodeValue root.value

/-- The canonical bytes of a root. -/
def bytes (root : MerkleRoot) : List UInt8 := wire root.value

theorem ofValue_eq_ok {v : Value} : ofValue v = .ok root ↔ root.epoch ≠ 0 ∧ v = root.value := by
  constructor
  · intro h
    obtain ⟨fields, hfields, h⟩ := bind_eq_ok.mp h
    obtain ⟨_, hversion, h⟩ := bind_eq_ok.mp h
    obtain ⟨body, hbody, h⟩ := bind_eq_ok.mp h
    obtain ⟨v1, hv1, h⟩ := bind_eq_ok.mp h
    obtain ⟨tail, htail, h⟩ := bind_eq_ok.mp h
    obtain ⟨epoch, hepoch, h⟩ := bind_eq_ok.mp h
    obtain ⟨hne, h⟩ := ite_error_eq_ok.mp h
    obtain ⟨time, htime, h⟩ := bind_eq_ok.mp h
    obtain ⟨backPointers, hback, h⟩ := bind_eq_ok.mp h
    obtain ⟨rootNode, hnode, h⟩ := bind_eq_ok.mp h
    obtain ⟨seqno, hseqno, h⟩ := bind_eq_ok.mp h
    obtain ⟨hash, hhash, h⟩ := bind_eq_ok.mp h
    cases h
    rw [array_eq_ok] at hfields htail
    rw [expectUnsigned_eq_ok] at hversion
    rw [variant_eq_ok] at hbody
    rw [arrayAtLeast_eq_ok] at hv1
    rw [unsigned_eq_ok] at hepoch htime hseqno
    rw [fixedBlob_eq_ok] at hback hnode hhash
    obtain ⟨rfl, hlen⟩ := hfields
    obtain ⟨rfl, hlen1⟩ := hv1
    obtain ⟨htail, hlen2⟩ := htail
    obtain ⟨f0, f1, rfl⟩ := List.length_eq_two.mp hlen
    obtain ⟨t0, t1, rfl⟩ := List.length_eq_two.mp hlen2
    -- the five fixed fields come first, the rest is kept
    match v1, hlen1 with
    | a :: b :: c :: d :: e :: rest, _ =>
      simp only [List.getD_cons_zero, List.getD_cons_succ] at *
      subst hversion hbody htail hepoch htime hback hnode hseqno hhash
      exact ⟨hne, rfl⟩
  · rintro ⟨hne, rfl⟩
    refine bind_of_ok (array_eq_ok.mpr ⟨rfl, rfl⟩) ?_
    refine bind_eq_ok.mpr ⟨(), expectUnsigned_eq_ok.mpr rfl, ?_⟩
    refine bind_of_ok (variant_eq_ok.mpr rfl) ?_
    refine bind_of_ok (arrayAtLeast_eq_ok.mpr ⟨rfl, by simp⟩) ?_
    refine bind_of_ok (array_eq_ok.mpr ⟨rfl, rfl⟩) ?_
    refine bind_of_ok (unsigned_eq_ok.mpr rfl) (ite_error_eq_ok.mpr ⟨hne, ?_⟩)
    refine bind_of_ok (unsigned_eq_ok.mpr rfl) ?_
    refine bind_of_ok (fixedBlob_eq_ok.mpr rfl) ?_
    refine bind_of_ok (fixedBlob_eq_ok.mpr rfl) ?_
    refine bind_of_ok (unsigned_eq_ok.mpr rfl) ?_
    exact bind_of_ok (fixedBlob_eq_ok.mpr rfl) rfl

/-- A root is decoded from its canonical bytes only, and only with a positive epoch. -/
theorem decode_eq_ok {bs : List UInt8} :
    decode bs = .ok root ↔ root.epoch ≠ 0 ∧ Codable root.value ∧ bs = root.bytes := by
  rw [decode, bind_eq_ok]
  constructor
  · rintro ⟨v, hv, h⟩
    obtain ⟨hcod, rfl⟩ := decodeValue_eq_ok.mp hv
    obtain ⟨hne, rfl⟩ := ofValue_eq_ok.mp h
    exact ⟨hne, hcod, rfl⟩
  · rintro ⟨hne, hcod, rfl⟩
    exact ⟨_, decodeValue_eq_ok.mpr ⟨hcod, rfl⟩, ofValue_eq_ok.mpr ⟨hne, rfl⟩⟩

theorem encoded_eq (h : Codable root.value) : root.encoded = .ok root.bytes :=
  encodeValue_codable h

theorem value_inj {a b : MerkleRoot} (h : a.value = b.value) : a = b := by
  cases a with
  | mk epoch time backPointers rootNode hostchain extensions =>
    cases b
    simp only [value, List.cons_append, List.nil_append, Value.array.injEq, List.cons.injEq,
      Value.variant.injEq, Value.unsigned.injEq, Value.binary.injEq] at h
    obtain ⟨-, ⟨-, rfl, rfl, hback, hnode, ⟨hseqno, hhash, -⟩, rfl⟩, -⟩ := h
    congr
    · exact FixedBytes.ext hback
    · exact FixedBytes.ext hnode
    · cases hostchain
      congr
      exact FixedBytes.ext hhash

theorem bytes_inj {a b : MerkleRoot} (ha : Codable a.value) (hb : Codable b.value)
    (h : a.bytes = b.bytes) : a = b := by
  have heb := hb.encode_eq
  rw [← show a.bytes = wire b.value from h] at heb
  exact value_inj (encode_inj ha.encode_eq heb)

end MerkleRoot

/-! ## Historical responses -/

structure HistoricalMerkleRoots where
  roots : List MerkleRoot
  hashes : List Hash
  deriving DecidableEq

namespace HistoricalMerkleRoots

/-- Each root is encoded again before it is read. -/
def rootOfValue (value : Value) : Except Error MerkleRoot := do
  let bytes ← encodeValue value
  MerkleRoot.decode bytes

def decode (bytes : List UInt8) : Except Error HistoricalMerkleRoots := do
  let wire ← decodeValue bytes
  let fields ← array wire 2
  let roots ← list (fields.getD 0 .null) rootOfValue
  let hashes ← list (fields.getD 1 .null) (fun value => fixedBlob 32 value "Merkle root hash")
  .ok ⟨roots, hashes⟩

/-- Each root's bytes are decoded again to embed its value. -/
def rootValue (root : MerkleRoot) : Except Error Value := do
  let bytes ← root.encoded
  decodeValue bytes

def encoded (history : HistoricalMerkleRoots) : Except Error (List UInt8) := do
  let roots ← history.roots.mapM rootValue
  encodeValue (.array [listValue roots,
    listValue (history.hashes.map fun hash => .binary hash.bytes)])

/-- The value that `encoded` writes. -/
def value (history : HistoricalMerkleRoots) : Value :=
  .array [listValue (history.roots.map MerkleRoot.value),
    listValue (history.hashes.map fun hash => .binary hash.bytes)]

variable {history : HistoricalMerkleRoots}

theorem root_codable (hcod : Codable history.value) (h : root ∈ history.roots) :
    Codable root.value := by
  have hlist : Codable (listValue (history.roots.map MerkleRoot.value)) :=
    hcod.of_mem List.mem_cons_self
  rw [listValue, if_neg (by simpa using List.ne_nil_of_mem h)] at hlist
  exact hlist.of_mem (List.mem_map_of_mem h)

/-- The number of Snowpack values in a response. -/
theorem size_value (history : HistoricalMerkleRoots) :
    history.value.size =
      3 + (history.roots.map fun root => root.value.size).sum + history.hashes.length := by
  have hhashes : ((history.hashes.map fun hash => Value.binary hash.bytes).map Value.size).sum =
      history.hashes.length := by
    rw [List.map_map, List.sum_eq_card_nsmul _ 1 (by simp [Value.size])]
    simp
  rw [value, Value.size, Value.sizes, Value.sizes, Value.sizes, size_listValue, size_listValue,
    Value.sizes_eq_sum, Value.sizes_eq_sum, hhashes, List.map_map]
  simp only [Function.comp_def]
  omega

/-- A response passes the codec when its roots do two steps down and it has not too many values. -/
theorem codable_value_iff :
    Codable history.value ↔ (∀ root ∈ history.roots, Fits 2 root.value) ∧
      3 + (history.roots.map fun root => root.value.size).sum + history.hashes.length ≤
        maximumDecodedValues := by
  have hsize := size_value history
  have hlen : history.roots.length ≤ (history.roots.map fun root => root.value.size).sum := by
    have := Value.length_le_sizes (history.roots.map MerkleRoot.value)
    rw [Value.sizes_eq_sum, List.map_map, List.length_map] at this
    exact this
  constructor
  · intro h
    obtain ⟨-, -, -, hroots, -⟩ := h.fits
    have hall := (fits_listValue.mp hroots).2.2
    rw [fitsAll_iff] at hall
    exact ⟨fun root hroot => hall _ (List.mem_map_of_mem hroot), hsize ▸ h.size_le⟩
  · rintro ⟨hroots, hle⟩
    refine ⟨⟨by decide, by simp, by simp [u32Max], ?_, ?_, trivial⟩, hsize ▸ hle⟩
    all_goals
      rw [fits_listValue, List.length_map, fitsAll_iff]
      unfold maximumDecodedValues at hle
      refine ⟨by decide, by unfold u32Max; omega, fun v hv => ?_⟩
    · obtain ⟨root, hroot, rfl⟩ := List.mem_map.mp hv
      exact hroots root hroot
    · obtain ⟨hash, -, rfl⟩ := List.mem_map.mp hv
      have := hash.size_eq
      exact ⟨by decide, by unfold u32Max; omega⟩

/-- A response within the limits of the codec is read back as it was written. -/
theorem decode_value (hcod : Codable history.value)
    (hepochs : ∀ root ∈ history.roots, root.epoch ≠ 0) :
    decode (wire history.value) = .ok history := by
  have hroots : ∀ root ∈ history.roots, rootOfValue root.value = .ok root := by
    intro root hroot
    have hrootCod := root_codable hcod hroot
    rw [rootOfValue, encodeValue_codable hrootCod, ok_bind]
    exact MerkleRoot.decode_eq_ok.mpr ⟨hepochs root hroot, hrootCod, rfl⟩
  refine bind_of_ok (decodeValue_eq_ok.mpr ⟨hcod, rfl⟩) ?_
  refine bind_of_ok (array_eq_ok.mpr ⟨rfl, rfl⟩) ?_
  refine bind_of_ok (list_listValue hroots) ?_
  exact bind_of_ok (list_listValue (fun hash _ => fixedBlob_eq_ok.mpr rfl)) rfl

theorem encoded_eq (hcod : Codable history.value) : history.encoded = .ok (wire history.value) := by
  have hroots : history.roots.mapM rootValue = .ok (history.roots.map MerkleRoot.value) := by
    rw [mapM_eq_ok_iff, List.forall₂_map_right_iff]
    refine List.forall₂_same.mpr fun root hroot => ?_
    have hrootCod := root_codable hcod hroot
    rw [rootValue, MerkleRoot.encoded_eq hrootCod, ok_bind]
    exact decodeValue_eq_ok.mpr ⟨hrootCod, rfl⟩
  rw [encoded, hroots, ok_bind]
  exact encodeValue_codable hcod

/-- A response that was written and can be read is within the limits of the codec. -/
theorem codable_of_encoded {read : HistoricalMerkleRoots} {bytes : List UInt8}
    (hwrite : history.encoded = .ok bytes) (hread : decode bytes = .ok read) :
    Codable history.value := by
  obtain ⟨values, hvalues, hwrite⟩ := bind_eq_ok.mp hwrite
  obtain ⟨wire, hwire, -⟩ := bind_eq_ok.mp hread
  obtain ⟨hcod, rfl⟩ := decodeValue_eq_ok.mp hwire
  have hroots : values = history.roots.map MerkleRoot.value := by
    rw [mapM_eq_ok_iff] at hvalues
    rw [← List.forall₂_eq_eq_eq, List.forall₂_map_right_iff]
    refine hvalues.flip.imp fun value root hvalue => ?_
    obtain ⟨bytes, hbytes, hvalue⟩ := bind_eq_ok.mp hvalue
    obtain ⟨hcod, rfl⟩ := decodeValue_eq_ok.mp hvalue
    exact encode_inj hcod.encode_eq (mapError_eq_ok.mp hbytes)
  rw [hroots] at hwrite
  rw [value, encode_inj (mapError_eq_ok.mp hwrite) hcod.encode_eq]
  exact hcod

end HistoricalMerkleRoots

end Foks.Proto
