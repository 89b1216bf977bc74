/-
  Nodes of the Merkle tree (`foks-merkle-store`, `node.rs` and the bit helpers of `tree.rs`).

  A leaf holds a key and a value; an interior node skips the bits
  `prefixBitStart .. prefixBitStart + prefixBitCount`, which all keys below it share, and has
  two children. A node is stored as its Snowpack bytes under the hash of those bytes.
-/
import Foks.Lib.ByteBits
import Foks.Crypto.PrefixedHash

namespace Foks.MerkleStore

open Foks.Lib Foks.Snowpack Foks.Crypto

inductive Error where
  | snowpack (error : Snowpack.Error)
  | invalidNode
  | missingNode (hash : Hash)
  | hashMismatch
  | conflictingNode
  | cycle
  | duplicateKey
  | emptyTree
  | depth
  deriving DecidableEq

def merkleNodeTypeId : UInt64 := 0xe941750dc5b96783

/-! ## Bits of a key -/

/-- Bit `bit` of a key. Every caller stays below 256. -/
def bitAt (key : Hash) (bit : Nat) : Bool := bitOf key.bytes bit

/-- The bits `start .. start + count` of a key, the rest of the bytes they touch cleared. -/
def copyAndClamp (key : Hash) (start count : Nat) : Except Error (List UInt8) :=
  if count = 0 then .ok []
  else do
    let stop ← okOr .depth (checkedAdd start count)
    if 256 ≤ stop - 1 then .error .depth
    else
      let endBit := stop - 1
      let output := (key.bytes.drop (start / 8)).take (endBit / 8 - start / 8 + 1)
      .ok (clampEnds start endBit output)

def prefixMatches (key : Hash) (start count : Nat) (prefixBytes : List UInt8) : Bool :=
  match copyAndClamp key start count with
  | .ok candidate => candidate == prefixBytes
  | .error _ => false

/-- The bytes `copyAndClamp` returns within the width of a key. -/
def clamp (key : Hash) (start count : Nat) : List UInt8 :=
  if count = 0 then [] else bitRange key.bytes start count

theorem copyAndClamp_eq {key : Hash} {start count : Nat} (h : start + count ≤ 256) :
    copyAndClamp key start count = .ok (clamp key start count) := by
  unfold copyAndClamp clamp
  by_cases hc : count = 0
  · rw [if_pos hc, if_pos hc]
  · rw [if_neg hc, if_neg hc, checkedAdd_eq_some (by omega)]
    simp only [okOr, ok_bind]
    rw [if_neg (by omega)]
    rfl

theorem clamp_length_le {key : Hash} {start count : Nat} (h : start + count ≤ 256) :
    (clamp key start count).length ≤ 32 := by
  have hlen := key.size_eq
  unfold clamp
  split
  · simp
  · rw [bitRange_length ‹_› (by omega)]
    omega

/-- Equal clamped prefixes are equal bits. -/
theorem clamp_eq_iff {a b : Hash} {start count : Nat} (h : start + count ≤ 256) :
    clamp a start count = clamp b start count ↔ AgreeOn bitAt start (start + count) a b := by
  have ha := a.size_eq
  have hb := b.size_eq
  unfold clamp
  by_cases hc : count = 0
  · subst hc
    simp only [if_true, true_iff]
    intro i hlo hhi
    omega
  · rw [if_neg hc, if_neg hc, bitRange_eq_iff hc (by omega) (by omega)]
    rfl

theorem prefixMatches_clamp {key sample : Hash} {start count : Nat} (h : start + count ≤ 256) :
    prefixMatches key start count (clamp sample start count) = true ↔
      AgreeOn bitAt start (start + count) sample key := by
  rw [prefixMatches, copyAndClamp_eq h]
  simp only [beq_iff_eq]
  rw [eq_comm, clamp_eq_iff h]

theorem hash_ext {a b : Hash} (h : AgreeOn bitAt 0 256 a b) : a = b := by
  have ha := a.size_eq
  have hb := b.size_eq
  exact FixedBytes.ext (bytes_ext (by omega) fun i hi => h i (by omega) (by omega))

/-- Keys in order: at the first bit on which they differ the smaller one has the zero. -/
theorem bitAt_mono {a b : Hash} {n : Nat} (hlt : compare a b = .lt)
    (hagree : AgreeOn bitAt 0 n a b) (hbit : bitAt a n = true) : bitAt b n = true :=
  bitOf_mono (a.size_eq.trans b.size_eq.symm) hagree hlt hbit

/-! ## Nodes -/

inductive Node where
  | leaf (key value : Hash)
  | interior (prefixBitStart prefixBitCount : UInt64) (prefixBytes : List UInt8)
      (left right : Hash)
  deriving DecidableEq

namespace Node

/-- The Snowpack value of a node: a discriminant and a tagged payload. -/
def value : Node → Value
  | .leaf key value =>
    .array [.unsigned 0, .variant [0x31] (.array [.binary key.bytes, .binary value.bytes])]
  | .interior start count prefixBytes left right =>
    .array [.unsigned 1, .variant [0x30] (.array [.unsigned start, .unsigned count,
      .binary prefixBytes, .binary left.bytes, .binary right.bytes])]

def encoded (node : Node) : Except Error (List UInt8) :=
  (encode node.value).mapError .snowpack

end Node

/-- An interior node's prefix has the bytes its range touches, and no bit outside the range. -/
def validPrefix (start count : UInt64) (prefixBytes : List UInt8) : Bool :=
  match checkedAdd start.toNat count.toNat with
  | none => false
  | some stop =>
    if 256 ≤ start.toNat ∨ 256 ≤ count.toNat ∨ 256 ≤ stop then false
    else if count = 0 then prefixBytes.isEmpty
    else if (stop - 1) / 8 - start.toNat / 8 + 1 ≠ prefixBytes.length then false
    else clampEnds start.toNat (stop - 1) prefixBytes == prefixBytes

def fixed32 (bytes : List UInt8) : Except Error Hash :=
  okOr .invalidNode (FixedBytes.ofBytes? 32 bytes)

/-- The match on the decoded value. -/
def Node.ofValue : Value → Except Error Node
  | .array [.unsigned discriminant, .variant tag (.array fields)] =>
    match discriminant, tag, fields with
    | 0, [0x31], [.binary key, .binary value] => do
      let key ← fixed32 key
      let value ← fixed32 value
      .ok (.leaf key value)
    | 1, [0x30], [.unsigned start, .unsigned count, .binary prefixBytes, .binary left,
        .binary right] =>
      if validPrefix start count prefixBytes then do
        let left ← fixed32 left
        let right ← fixed32 right
        .ok (.interior start count prefixBytes left right)
      else .error .invalidNode
    | _, _, _ => .error .invalidNode
  | _ => .error .invalidNode

def Node.decode (bytes : List UInt8) : Except Error Node := do
  let value ← (Snowpack.decode bytes).mapError .snowpack
  Node.ofValue value

def hashNode (digest : Digest) (node : Node) : Except Error Hash := do
  let encoded ← node.encoded
  (prefixedHashSignable digest merkleNodeTypeId encoded).mapError .snowpack

/-! ## Nodes and their bytes -/

variable {node : Node}

namespace Node

/-- The canonical bytes of a node. -/
def bytes (node : Node) : List UInt8 := wire node.value

/-- The encoder takes the node: its prefix is within the length limit. -/
def Encodable : Node → Prop
  | .leaf _ _ => True
  | .interior _ _ prefixBytes _ _ => prefixBytes.length ≤ u32Max

/-- A node that `decode` accepts back. -/
def Valid : Node → Prop
  | .leaf _ _ => True
  | .interior start count prefixBytes _ _ => validPrefix start count prefixBytes = true

theorem value_codable (h : node.Encodable) : Codable node.value := by
  have hhash (a : Hash) : a.bytes.length ≤ u32Max := by
    rw [a.size_eq]
    decide
  cases node with
  | leaf key leaf =>
    refine ⟨?_, by simp [value, Value.size, Value.sizes, maximumDecodedValues]⟩
    simp [value, Fits, FitsAll, maxDepth, hhash]
    decide
  | interior start count prefixBytes left right =>
    refine ⟨?_, by simp [value, Value.size, Value.sizes, maximumDecodedValues]⟩
    have hp : prefixBytes.length ≤ u32Max := h
    simp [value, Fits, FitsAll, maxDepth, hhash, hp]
    decide

theorem value_signable (node : Node) : Signable node.value := by
  cases node <;> simp [value, Signable, SignableAll]

theorem encoded_eq (h : node.Encodable) : node.encoded = .ok node.bytes := by
  rw [encoded, (value_codable h).encode_eq]
  rfl

theorem encodable_of_encoded {bs : List UInt8} (h : node.encoded = .ok bs) :
    node.Encodable ∧ bs = node.bytes := by
  obtain ⟨hfit, rfl⟩ := encode_eq_ok (mapError_eq_ok.mp h)
  refine ⟨?_, rfl⟩
  cases node with
  | leaf key leaf => trivial
  | interior start count prefixBytes left right =>
    simp only [value, Fits, FitsAll] at hfit
    exact hfit.2.2.2.2.1.2.2.2.2.2.2.2.1.2

theorem value_inj {a b : Node} (h : a.value = b.value) : a = b := by
  cases a <;> cases b <;> simp_all [value, FixedBytes.ext_iff]

theorem bytes_inj {a b : Node} (ha : a.Encodable) (hb : b.Encodable) (h : a.bytes = b.bytes) :
    a = b := by
  have hea := (value_codable ha).encode_eq
  have heb := (value_codable hb).encode_eq
  exact value_inj (encode_inj hea (by rw [heb]; exact congrArg _ h.symm))

theorem ofValue_value (h : node.Valid) : ofValue node.value = .ok node := by
  cases node with
  | leaf key leaf => simp [ofValue, value, fixed32, okOr]
  | interior start count prefixBytes left right =>
    have hp : validPrefix start count prefixBytes = true := h
    simp [ofValue, value, fixed32, okOr, hp]

theorem decode_bytes (h : node.Encodable) (hv : node.Valid) : decode node.bytes = .ok node := by
  rw [decode, bytes, Snowpack.decode_eq_ok_iff.mpr ⟨value_codable h, rfl⟩]
  exact ofValue_value hv

end Node

/-- The hash under which a node is stored. -/
def nodeHash (digest : Digest) (node : Node) : Hash :=
  prefixedHash digest merkleNodeTypeId node.bytes

theorem hashNode_eq (digest : Digest) (h : node.Encodable) :
    hashNode digest node = .ok (nodeHash digest node) := by
  rw [hashNode, Node.encoded_eq h, ok_bind, Node.bytes,
    prefixedHashSignable_wire digest _ (Node.value_codable h) (Node.value_signable node)]
  rfl

/-- The prefix of a built node is valid. -/
theorem validPrefix_clamp (key : Hash) {start count : Nat} (h : start + count < 256) :
    validPrefix (UInt64.ofNat start) (UInt64.ofNat count) (clamp key start count) = true := by
  have hs : (UInt64.ofNat start).toNat = start := toNat_ofNat64 (by omega)
  have hc : (UInt64.ofNat count).toNat = count := toNat_ofNat64 (by omega)
  have hlen := key.size_eq
  unfold validPrefix
  rw [hs, hc, checkedAdd_eq_some (by omega)]
  simp only
  rw [if_neg (by omega)]
  by_cases h0 : count = 0
  · subst h0
    simp [clamp]
  · have hne : UInt64.ofNat count ≠ 0 := by
      intro h
      rw [h] at hc
      exact h0 hc.symm
    have hcl := @bitRange_length key.bytes start count h0 (by omega)
    rw [if_neg hne, clamp, if_neg h0, if_neg (by omega), beq_iff_eq]
    refine bytes_ext (by simp) fun i hi => ?_
    rw [clampEnds_length] at hi
    rw [bitOf_clampEnds hi hcl (by omega), bitOf_bitRange h0 (by omega) hi]
    by_cases hr : start ≤ 8 * (start / 8) + i ∧ 8 * (start / 8) + i < start + count
    · rw [decide_eq_true hr, decide_eq_true (by omega), Bool.and_true]
    · rw [decide_eq_false hr, Bool.and_false, Bool.false_and]

end Foks.MerkleStore
