/-
  Proofs of presence and absence (`foks-merkle-store`, `proof.rs`).

  `proof` walks the stored nodes along the bits of the queried key and records an edge per
  interior node. On a store that holds a well-formed tree it returns the path that the tree
  itself gives for the key (`treePath`, `proof_eq`).
-/
import Foks.Proto.MerklePath
import Foks.Merkle.Read

namespace Foks.MerkleStore

open Foks.Lib Foks.Snowpack Foks.Crypto Foks.Proto

/-- The loop of `proof`. As in `collectLeaves`, 257 levels are enough. -/
def proofLoop (digest : Digest) (reader : NodeReader) (query : Hash) :
    Nat → Hash → Nat → List Edge → HashSet → Except Error MerklePathCompressed
  | 0, _, _, _, _ => .error .depth
  | levels + 1, current, bit, edges, visited =>
    if current ∈ visited then .error .cycle
    else do
      let visited := visited.insert current
      let node ← fetchNode digest reader current
      match node with
      | .leaf key value =>
        if ¬ (List.range bit).all fun index => bitAt key index == bitAt query index then
          .error .invalidNode
        else .ok ⟨edges, .leaf value (if key ≠ query then some key else none)⟩
      | .interior prefixBitStart prefixBitCount prefixBytes left right =>
        let start := prefixBitStart.toNat
        let count := prefixBitCount.toNat
        if start ≠ bit ∨ 255 < count then .error .invalidNode
        else if ¬ prefixMatches query start count prefixBytes then
          .ok ⟨edges, .prefixMiss prefixBitStart prefixBitCount prefixBytes left right⟩
        else do
          let branch ← okOr .depth (checkedAdd start count)
          if 256 ≤ branch then .error .depth
          else
            let (next, sibling) := if bitAt query branch then (right, left) else (left, right)
            let edge := Edge.make (UInt8.ofNat count) sibling
            proofLoop digest reader query levels next (branch + 1) (edges ++ [edge]) visited

def proof (digest : Digest) (reader : NodeReader) (root query : Hash) :
    Except Error MerklePathCompressed :=
  if root = emptyRoot then .error .emptyTree
  else proofLoop digest reader query 257 root 0 [] ∅

/-! ## The path a tree gives -/

/-- The path of a key, read off the tree. -/
def treePath (digest : Digest) (query : Hash) : Tree → MerklePathCompressed
  | .leaf key value => ⟨[], .leaf value (if key ≠ query then some key else none)⟩
  | .fork start count sample left right =>
    if prefixMatches query start count (clamp sample start count) then
      if bitAt query (start + count) then
        (treePath digest query right).cons (.make (UInt8.ofNat count) (rootHash digest left))
      else (treePath digest query left).cons (.make (UInt8.ofNat count) (rootHash digest right))
    else
      ⟨[], .prefixMiss (UInt64.ofNat start) (UInt64.ofNat count) (clamp sample start count)
        (rootHash digest left) (rootHash digest right)⟩

variable {digest : Digest} {reader : NodeReader} {query : Hash}

/-- Below a fork that the key passes, all keys agree with it up to the branch bit. -/
theorem agree_child {start count : Nat} {sample : Hash} {left right : Tree}
    (hwf : TreeWF start (.fork start count sample left right))
    (hagree : ∀ e ∈ (Trie.fork start count sample left right).entries,
      AgreeOn bitAt 0 start e.1 query)
    (hclamp : AgreeOn bitAt start (start + count) sample query) :
    ∀ e ∈ (if bitAt query (start + count) then right else left).entries,
      AgreeOn bitAt 0 (start + count + 1) e.1 query := by
  intro e he
  have hmem : e ∈ (Trie.fork start count sample left right).entries := by
    split at he
    · exact List.mem_append_right _ he
    · exact List.mem_append_left _ he
  have hbit : bitAt e.1 (start + count) = bitAt query (start + count) := by
    cases hq : bitAt query (start + count) with
    | true => exact hwf.1.right_bit e (by simpa [hq] using he)
    | false => exact hwf.1.left_bit e (by simpa [hq] using he)
  exact ((hagree e hmem).append ((hwf.1.agree e hmem).symm.trans hclamp)).snoc hbit

theorem proofLoop_eq (levels bit : Nat) (t : Tree) (edges : List Edge) (visited : HashSet)
    (hlevels : 257 ≤ levels + bit) (hbit : bit ≤ 256) (hwf : TreeWF bit t)
    (hholds : Holds digest reader t) (hinj : NoCollision digest (treeNodes digest t))
    (hvisited : ∀ node ∈ treeNodes digest t, nodeHash digest node ∉ visited)
    (hagree : ∀ e ∈ t.entries, AgreeOn bitAt 0 bit e.1 query) :
    proofLoop digest reader query levels (rootHash digest t) bit edges visited =
      .ok ⟨edges ++ (treePath digest query t).edges, (treePath digest query t).terminal⟩ := by
  induction t generalizing levels bit edges visited with
  | leaf key value =>
    obtain ⟨levels, rfl⟩ : ∃ n, levels = n + 1 := ⟨levels - 1, by omega⟩
    have hfresh := hvisited _ (rootNode_mem digest _)
    rw [← rootHash_eq] at hfresh
    have hall :
        (List.range bit).all (fun index => bitAt key index == bitAt query index) = true := by
      simp only [List.all_eq_true, List.mem_range, beq_iff_eq]
      exact fun i hi => hagree (key, value) (by simp [Trie.entries]) i (by omega) hi
    rw [proofLoop, if_neg hfresh, fetchNode_rootHash hwf hholds, ok_bind]
    simp only [rootNode]
    rw [if_neg (by rw [hall]; simp)]
    simp [treePath]
  | fork s count sample left right ihl ihr =>
    obtain ⟨levels, rfl⟩ : ∃ n, levels = n + 1 := ⟨levels - 1, by omega⟩
    obtain rfl : s = bit := hwf.1.start_eq
    have hlt := hwf.1.branch_lt
    have hs : (UInt64.ofNat s).toNat = s := toNat_ofNat64 (by omega)
    have hc : (UInt64.ofNat count).toNat = count := toNat_ofNat64 (by omega)
    have hfresh := hvisited _ (rootNode_mem digest _)
    rw [← rootHash_eq] at hfresh
    rw [proofLoop, if_neg hfresh, fetchNode_rootHash hwf hholds, ok_bind, treePath]
    simp only [rootNode, hs, hc]
    rw [if_neg (by omega)]
    by_cases hclamp : prefixMatches query s count (clamp sample s count) = true
    · have hchild := agree_child hwf hagree ((prefixMatches_clamp (by omega)).mp hclamp)
      have hbelow {node : Node} :=
        @child_not_visited digest _ _ _ _ _ _ hwf hinj visited hvisited node
      rw [if_neg (by simpa using hclamp), if_pos hclamp, checkedAdd_eq_some (by omega)]
      simp only [okOr, ok_bind]
      rw [if_neg (by omega)]
      cases hb : bitAt query (s + count) with
      | true =>
        simp only [hb, if_true] at hchild ⊢
        rw [ihr levels (s + count + 1) _ _ (by omega) (by omega) hwf.2.2 hholds.right
          (hinj.mono (treeNodes_right_subset ..))
          (fun node hn => hbelow (List.mem_append_right _ hn)) hchild]
        simp [MerklePathCompressed.cons]
      | false =>
        simp only [hb, Bool.false_eq_true, if_false] at hchild ⊢
        rw [ihl levels (s + count + 1) _ _ (by omega) (by omega) hwf.2.1 hholds.left
          (hinj.mono (treeNodes_left_subset ..))
          (fun node hn => hbelow (List.mem_append_left _ hn)) hchild]
        simp [MerklePathCompressed.cons]
    · rw [if_pos (by simpa using hclamp), if_neg hclamp]
      simp

/-- Against a store that holds the tree, `proof` returns the tree's own path. -/
theorem proof_eq {t : Tree} (hwf : TreeWF 0 t) (hholds : Holds digest reader t)
    (hinj : NoCollision digest (treeNodes digest t)) (hne : rootHash digest t ≠ emptyRoot) :
    proof digest reader (rootHash digest t) query = .ok (treePath digest query t) := by
  rw [proof, if_neg hne, proofLoop_eq 257 0 t [] ∅ (by omega) (by omega) hwf hholds hinj (by simp)
    (fun _ _ _ _ hi => absurd hi (by omega))]
  rfl

end Foks.MerkleStore
