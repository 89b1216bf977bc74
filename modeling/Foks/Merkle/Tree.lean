/-
  The Merkle tree store (`foks-merkle-store`: `tree.rs`, `commit.rs`, `memory.rs`).

  `prepare` reads all leaves below the current root, applies a batch of changes to that map,
  lays the new map out as a path-compressed tree from scratch (`build`), and returns the nodes
  the store does not have yet. `applyCommit` writes them. Nodes are never removed.

  A reader is a function from hashes to stored bytes, so that the code stays generic in the
  store; `MemoryStore` is the store of the crate.
-/
import Foks.Merkle.Node

namespace Foks.MerkleStore

open Foks.Lib Foks.Snowpack Foks.Crypto

/-- The root of the empty tree. -/
def emptyRoot : Hash := FixedBytes.replicate 32 0

abbrev Leaves := Std.ExtTreeMap Hash Hash compare

abbrev NodeMap := Std.ExtTreeMap Hash (List UInt8) compare

abbrev HashSet := Std.ExtTreeSet Hash compare

/-- The trait `NodeReader`: `get_node`. -/
abbrev NodeReader := Hash → Except Error (Option (List UInt8))

inductive LeafChange where
  | set (key value : Hash)
  | remove (key : Hash)
  deriving DecidableEq

def LeafChange.key : LeafChange → Hash
  | .set key _ => key
  | .remove key => key

structure Commit where
  root : Hash
  leafCount : Nat
  nodes : List (Hash × List UInt8)

/-! ## Stores -/

structure MemoryStore where
  nodes : NodeMap

namespace MemoryStore

def empty : MemoryStore := ⟨∅⟩

def getNode (store : MemoryStore) : NodeReader := fun hash => .ok store.nodes[hash]?

def putNode (store : MemoryStore) (hash : Hash) (encoded : List UInt8) :
    Except Error MemoryStore :=
  match store.nodes[hash]? with
  | some existing => if existing ≠ encoded then .error .conflictingNode else .ok store
  | none => .ok ⟨store.nodes.insert hash encoded⟩

end MemoryStore

/-- `apply_commit` over any `NodeWriter`, given by its `put_node`. -/
def applyCommit {σ : Type} (putNode : σ → Hash → List UInt8 → Except Error σ) (writer : σ)
    (commit : Commit) : Except Error σ :=
  commit.nodes.foldlM (fun writer node => putNode writer node.1 node.2) writer

/-! ## Building the tree -/

/-- The loop of `common_prefix` over the bits `bit .. 256`, with `left` of them to go. -/
def commonPrefixFrom (entries : List (Hash × Hash)) (start : Nat) : Nat → Nat → Except Error Nat
  | 0, _ => .error .duplicateKey
  | left + 1, bit =>
    match entries with
    | [] => .error .duplicateKey -- `entries[0]`: no caller passes an empty slice
    | first :: others =>
      let expected := bitAt first.1 bit
      if others.any (fun e => bitAt e.1 bit != expected) then .ok (bit - start)
      else commonPrefixFrom entries start left (bit + 1)

/-- Bits from `start` on that all entries share. -/
def commonPrefix (entries : List (Hash × Hash)) (start : Nat) : Except Error Nat :=
  commonPrefixFrom entries start (256 - start) start

def insertNode (digest : Digest) (node : Node) (nodes : NodeMap) :
    Except Error (Hash × NodeMap) := do
  let hash ← hashNode digest node
  let encoded ← node.encoded
  .ok (hash, nodes.insert hash encoded)

/-- `build`. Both slices of a split are shorter than the slice, so the recursion is on a bound of
    its length; `entries.length` is enough. -/
def build (digest : Digest) : Nat → List (Hash × Hash) → Nat → NodeMap →
    Except Error (Hash × NodeMap)
  | 0, _, _, _ => .error .duplicateKey
  | bound + 1, entries, start, nodes =>
    match entries with
    | [(key, value)] => insertNode digest (.leaf key value) nodes
    | [] => .error .duplicateKey -- `entries[0]`: no caller passes an empty slice
    | first :: _ => do
      let prefixCount ← commonPrefix entries start
      let branch ← okOr .depth (checkedAdd start prefixCount)
      if 256 ≤ branch then .error .duplicateKey
      else
        -- `partition_point`: the entries are sorted, see `layout_spec`
        let split := (entries.takeWhile fun e => !bitAt e.1 branch).length
        if split = 0 ∨ split = entries.length then .error .duplicateKey
        else do
          let (left, nodes) ← build digest bound (entries.take split) (branch + 1) nodes
          let (right, nodes) ← build digest bound (entries.drop split) (branch + 1) nodes
          let prefixBytes ← copyAndClamp first.1 start prefixCount
          insertNode digest (.interior (UInt64.ofNat start) (UInt64.ofNat prefixCount) prefixBytes
            left right) nodes

/-! ## Reading the leaves back -/

/-- Inserting entries none of which may be there yet. -/
def mergeLeaves (leaves : Leaves) : List (Hash × Hash) → Except Error Leaves
  | [] => .ok leaves
  | (key, value) :: rest =>
    if key ∈ leaves then .error .duplicateKey else mergeLeaves (leaves.insert key value) rest

/-- Reads a node and checks it against its address. -/
def fetchNode (digest : Digest) (reader : NodeReader) (hash : Hash) : Except Error Node := do
  let stored ← reader hash
  let encoded ← okOr (.missingNode hash) stored
  let node ← Node.decode encoded
  let actual ← hashNode digest node
  if actual ≠ hash then .error .hashMismatch else .ok node

/-- `collect_leaves`. A child starts past the bit its parent branches on and a node at bit 256
    does not decode, so 257 levels are enough. -/
def collectLeaves (digest : Digest) (reader : NodeReader) : Nat → Hash → Nat → HashSet → Leaves →
    Except Error (HashSet × Leaves)
  | 0, _, _, _, _ => .error .depth
  | levels + 1, hash, expectedStart, visited, leaves =>
    if hash ∈ visited then .error .cycle
    else do
      let visited := visited.insert hash
      let node ← fetchNode digest reader hash
      match node with
      | .leaf key value => do
        let leaves ← mergeLeaves leaves [(key, value)]
        .ok (visited, leaves)
      | .interior prefixBitStart prefixBitCount prefixBytes left right =>
        let start := prefixBitStart.toNat
        let count := prefixBitCount.toNat
        if start ≠ expectedStart then .error .invalidNode
        else do
          let branch ← okOr .depth ((checkedAdd start count).filter (· < 256))
          let (visited, leftLeaves) ←
            collectLeaves digest reader levels left (branch + 1) visited ∅
          let (visited, rightLeaves) ←
            collectLeaves digest reader levels right (branch + 1) visited ∅
          if (leftLeaves.keys.any fun key =>
                !prefixMatches key start count prefixBytes || bitAt key branch) ||
              (rightLeaves.keys.any fun key =>
                !prefixMatches key start count prefixBytes || !bitAt key branch)
          then .error .invalidNode
          else do
            let leaves ← mergeLeaves leaves (leftLeaves.toList ++ rightLeaves.toList)
            .ok (visited, leaves)

/-- The leaves below a root, as `prepare` reads them. -/
def readLeaves (digest : Digest) (reader : NodeReader) (currentRoot : Hash) :
    Except Error Leaves :=
  if currentRoot ≠ emptyRoot then do
    let (_, leaves) ← collectLeaves digest reader 257 currentRoot 0 ∅ ∅
    .ok leaves
  else .ok ∅

/-! ## Preparing a commit -/

def LeafChange.apply (leaves : Leaves) : LeafChange → Leaves
  | .set key value => leaves.insert key value
  | .remove key => leaves.erase key

/-- The loop over the changes of a batch. -/
def applyChanges : HashSet → Leaves → List LeafChange → Except Error Leaves
  | _, leaves, [] => .ok leaves
  | changedKeys, leaves, change :: changes =>
    if change.key ∈ changedKeys then .error .duplicateKey
    else applyChanges (changedKeys.insert change.key) (change.apply leaves) changes

/-- The nodes among `nodes` that the store does not have. -/
def newNodes (reader : NodeReader) : List (Hash × List UInt8) →
    Except Error (List (Hash × List UInt8))
  | [] => .ok []
  | (hash, encoded) :: rest => do
    match ← reader hash with
    | some existing =>
      if existing = encoded then newNodes reader rest else .error .conflictingNode
    | none => do
      let fresh ← newNodes reader rest
      .ok ((hash, encoded) :: fresh)

def prepare (digest : Digest) (reader : NodeReader) (currentRoot : Hash)
    (changes : List LeafChange) : Except Error Commit := do
  let leaves ← readLeaves digest reader currentRoot
  let leaves ← applyChanges ∅ leaves changes
  if leaves.isEmpty then .ok ⟨emptyRoot, 0, []⟩
  else
    let entries := leaves.toList
    let (root, nodes) ← build digest entries.length entries 0 ∅
    let fresh ← newNodes reader nodes.toList
    .ok ⟨root, entries.length, fresh⟩

end Foks.MerkleStore
