/-
  Verification of compressed Merkle paths (`foks-verify`, `proof.rs`).

  The verifier walks the edges from the root, cutting each interior node's prefix out of the
  queried key itself, and checks the terminal against what the caller expects. It then climbs
  back, hashing the nodes it has put together, and compares the result with the root.
-/
import Foks.Lib.ByteBits
import Foks.Proto.MerklePath
import Foks.Verify.Basic

namespace Foks.Verify

open Foks.Lib Foks.Snowpack Foks.Crypto Foks.Proto

def merkleNodeTypeId : UInt64 := 0xe941750dc5b96783

/-! ## Bits of the queried key -/

def bitAt (bytes : List UInt8) (bit : Nat) : Option Bool :=
  bytes[bit / 8]?.map fun byte => byteBit byte (bit % 8)

/-- `slice.get(first..=last)`. -/
def getRange (bytes : List UInt8) (first last : Nat) : Option (List UInt8) :=
  if first ≤ last + 1 ∧ last < bytes.length then some ((bytes.drop first).take (last + 1 - first))
  else none

def copyAndClamp (bytes : List UInt8) (start count : Nat) : Option (List UInt8) :=
  if count = 0 then some []
  else do
    let stop ← checkedAdd start count
    let endBit := stop - 1
    let output ← getRange bytes (start / 8) (endBit / 8)
    some (clampEnds start endBit output)

/-- The mask of byte `index` of a slice of `length` bytes. -/
def rangeMask (start endBit index length : Nat) : UInt8 :=
  let mask : UInt8 := if index = 0 then 0xff >>> UInt8.ofNat (start % 8) else 0xff
  if index + 1 = length then mask &&& (0xff <<< UInt8.ofNat (7 - endBit % 8)) else mask

def prefixMatches (key prefixBytes : List UInt8) (start count : Nat) : Bool :=
  if count = 0 then true
  else
    match checkedAdd start count with
    | none => false
    | some stop =>
      let endBit := stop - 1
      match getRange key (start / 8) (endBit / 8) with
      | none => false
      | some keySlice =>
        if prefixBytes.length ≠ keySlice.length then false
        else
          (keySlice.zip prefixBytes).zipIdx.all fun ((left, right), index) =>
            (left ^^^ right) &&& rangeMask start endBit index keySlice.length == 0

def bitsEqual (left right : List UInt8) (count : Nat) : Bool :=
  (List.range count).all fun bit => bitAt left bit == bitAt right bit

/-! ## The verifier -/

inductive ExpectedLeaf where
  | absent
  | exact (leaf : Hash)
  | present
  deriving DecidableEq

/-- What is remembered of an edge on the way down. -/
structure Interior where
  start : Nat
  count : Nat
  prefixBytes : List UInt8
  branch : Bool
  sibling : Hash

def leafValue (key leaf : Hash) : Value :=
  .array [.unsigned 0, .variant [0x31] (.array [.binary key.bytes, .binary leaf.bytes])]

def interiorValue (start count : UInt64) (prefixBytes : List UInt8) (left right : Hash) : Value :=
  .array [.unsigned 1, .variant [0x30] (.array [.unsigned start, .unsigned count,
    .binary prefixBytes, .binary left.bytes, .binary right.bytes])]

/-- One interior node, given the hash of the child on the path. -/
def Interior.value (i : Interior) (current : Hash) : Value :=
  let (left, right) := if i.branch then (i.sibling, current) else (current, i.sibling)
  interiorValue (UInt64.ofNat i.start) (UInt64.ofNat i.count) i.prefixBytes left right

/-- The loop over the edges. -/
def walkEdges (queryKey : Hash) : List Edge → Nat → Except Error (List Interior × Nat)
  | [], bitCursor => .ok ([], bitCursor)
  | edge :: edges, bitCursor => do
    let prefixCount := edge.count.toNat
    let prefixBytes ← okOr .userMerkleProof (copyAndClamp queryKey.bytes bitCursor prefixCount)
    let bitCursor ← okOr .userMerkleProof (checkedAdd bitCursor prefixCount)
    let branch ← okOr .userMerkleProof (bitAt queryKey.bytes bitCursor)
    let bitCursor := bitCursor + 1
    let interior :=
      ⟨bitCursor - prefixCount - 1, prefixCount, prefixBytes, branch, edge.sibling⟩
    let (interiors, bitCursor) ← walkEdges queryKey edges bitCursor
    .ok (interior :: interiors, bitCursor)

/-- Whether the terminal leaf is what the caller expects. -/
def ExpectedLeaf.accepts (queryKey leaf : Hash) (foundKey : Option Hash) : ExpectedLeaf → Bool
  | .exact expected => foundKey.isNone && leaf == expected
  | .present => foundKey.isNone
  | .absent => foundKey.any (· != queryKey)

section

variable (digest : Digest)

def hashValue (v : Value) : Except Error Hash := do
  let bytes ← encoded v
  prefixedHash digest merkleNodeTypeId bytes

/-- Checks the terminal; its node is where the climb starts. -/
def terminalValue (queryKey : Hash) (expectedLeaf : ExpectedLeaf) (bitCursor : Nat) :
    MerkleTerminal → Except Error Value
  | .leaf leaf foundKey =>
    if ¬ expectedLeaf.accepts queryKey leaf foundKey then .error .userMerkleProof
    else if foundKey.any fun found => !bitsEqual queryKey.bytes found.bytes bitCursor then
      .error .userMerkleProof
    else .ok (leafValue (foundKey.getD queryKey) leaf)
  | .prefixMiss prefixBitStart prefixBitCount prefixBytes left right =>
    if expectedLeaf ≠ .absent ∨ prefixBitStart.toNat ≠ bitCursor ∨
        prefixMatches queryKey.bytes prefixBytes bitCursor prefixBitCount.toNat then
      .error .userMerkleProof
    else .ok (interiorValue prefixBitStart prefixBitCount prefixBytes left right)

/-- The loop back up, over the interiors from the last one to the first. -/
def climb (interiors : List Interior) (current : Hash) : Except Error Hash :=
  interiors.reverse.foldlM (fun current interior => hashValue digest (interior.value current))
    current

variable (path : MerklePathCompressed)

def verifyMerklePathWith (queryKey : Hash) (expectedLeaf : ExpectedLeaf) (expectedRootNode : Hash) :
    Except Error Unit := do
  let (interiors, bitCursor) ← walkEdges queryKey path.edges 0
  let terminal ← terminalValue queryKey expectedLeaf bitCursor path.terminal
  let current ← hashValue digest terminal
  let current ← climb digest interiors current
  if current = expectedRootNode then .ok () else .error .userMerkleProof

def verifyMerklePath (queryKey : Hash) (expectedLeaf : Option Hash) (expectedRootNode : Hash) :
    Except Error Unit :=
  let expected := match expectedLeaf with
    | none => .absent
    | some leaf => .exact leaf
  verifyMerklePathWith digest path queryKey expected expectedRootNode

def verifyMerklePathPresent (queryKey : Hash) (expectedRootNode : Hash) : Except Error Unit :=
  verifyMerklePathWith digest path queryKey .present expectedRootNode

end

end Foks.Verify
