/-
  Compressed Merkle paths as they travel between server and client (`foks-proto`,
  `identity/merkle.rs`).
-/
import Foks.Crypto.PrefixedHash

namespace Foks.Proto

open Foks.Lib Foks.Crypto

/-- How a path ends: at a leaf, which holds the queried key unless another key was found there, or
    at an interior node whose prefix the queried key does not have. -/
inductive MerkleTerminal where
  | leaf (leaf : Hash) (foundKey : Option Hash)
  | prefixMiss (prefixBitStart prefixBitCount : UInt64) (prefixBytes : List UInt8)
      (left right : Hash)
  deriving DecidableEq

/-- An edge is the prefix count of an interior node and the hash of the child not taken. -/
abbrev Edge := FixedBytes 33

structure MerklePathCompressed where
  edges : List Edge
  terminal : MerkleTerminal
  deriving DecidableEq

/-- The path with one more edge in front. -/
def MerklePathCompressed.cons (edge : Edge) (path : MerklePathCompressed) : MerklePathCompressed :=
  ⟨edge :: path.edges, path.terminal⟩

/-- The first byte of an edge. -/
def Edge.count (edge : Edge) : UInt8 := edge.bytes.head (by
  have h := edge.size_eq
  intro hnil
  simp [hnil] at h)

/-- The other 32 bytes. -/
def Edge.sibling (edge : Edge) : Hash := ⟨edge.bytes.tail, by simp [edge.size_eq]⟩

def Edge.make (count : UInt8) (sibling : Hash) : Edge :=
  ⟨count :: sibling.bytes, by simp [sibling.size_eq]⟩

@[simp] theorem Edge.count_make (count : UInt8) (sibling : Hash) :
    Edge.count (.make count sibling) = count := rfl

@[simp] theorem Edge.sibling_make (count : UInt8) (sibling : Hash) :
    Edge.sibling (.make count sibling) = sibling := rfl

end Foks.Proto
