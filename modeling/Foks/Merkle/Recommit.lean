/-
  Committing an unchanged tree over a store that is not trusted.

  The checks on the way down make of any nodes that are read a well-formed tree, each node of which
  is stored in its canonical bytes under its own hash (`collectLeaves_tree`). A well-formed tree is
  determined by its entries (`treeNodes_unique`), so that the tree that `prepare` builds from the
  leaves is the one that was read.
-/
import Foks.Lib.Sha512
import Foks.Merkle.Read

namespace Foks.MerkleStore

open Foks.Lib Foks.Snowpack Foks.Crypto

variable {digest : Digest} {reader : NodeReader}

/-! ## A tree is determined by its entries -/

theorem treeNodes_unique {start : Nat} {t t' : Tree} (hwf : TreeWF start t) (hwf' : TreeWF start t')
    (hsub : t.entries ⊆ t'.entries) (hsub' : t'.entries ⊆ t.entries) :
    rootHash digest t = rootHash digest t' ∧ treeNodes digest t = treeNodes digest t' := by
  induction t generalizing start t' with
  | leaf key value =>
    cases t' with
    | leaf key' value' =>
      have heq : (key, value) = (key', value') :=
        List.mem_singleton.mp (hsub (by simp [Trie.entries]))
      cases heq
      exact ⟨rfl, rfl⟩
    | fork => exact absurd hsub' (hwf'.not_subset_singleton _)
  | fork s count sample left right ihl ihr =>
    cases t' with
    | leaf => exact absurd hsub (hwf.not_subset_singleton _)
    | fork s' count' sample' left' right' =>
      obtain rfl : count = count' :=
        le_antisymm (hwf'.count_le hwf hsub') (hwf.count_le hwf' hsub)
      obtain rfl : s = start := hwf.1.start_eq
      obtain rfl : s' = s := hwf'.1.start_eq
      obtain ⟨hsubL, hsubR⟩ := hwf.sides_subset hwf' hsub
      obtain ⟨hsubL', hsubR'⟩ := hwf'.sides_subset hwf hsub'
      obtain ⟨hleft, hleftNodes⟩ := ihl hwf.2.1 hwf'.2.1 hsubL hsubL'
      obtain ⟨hright, hrightNodes⟩ := ihr hwf.2.2 hwf'.2.2 hsubR hsubR'
      have hclamp : clamp sample s' count = clamp sample' s' count := by
        obtain ⟨e, he⟩ := List.exists_mem_of_ne_nil _ (Trie.fork s' count sample left
          right).entries_ne_nil
        have hlt := hwf.1.branch_lt
        exact (clamp_eq_iff (by omega)).mpr
          ((hwf.1.agree e he).trans (hwf'.1.agree e (hsub he)).symm)
      simp [rootHash, treeNodes, rootNode, hclamp, hleft, hright, hleftNodes, hrightNodes]

/-! ## What was read -/

theorem fixed32_eq_ok {bytes : List UInt8} {hash : Hash} (h : fixed32 bytes = .ok hash) :
    hash.bytes = bytes :=
  (FixedBytes.ofBytes?_eq_some.mp (okOr_eq_ok.mp h)).symm

theorem Node.ofValue_eq_ok {value : Value} {node : Node} (h : Node.ofValue value = .ok node) :
    node.value = value := by
  unfold Node.ofValue at h
  split at h
  · split at h
    · obtain ⟨key, hkey, h⟩ := bind_eq_ok.mp h
      obtain ⟨leaf, hleaf, h⟩ := bind_eq_ok.mp h
      obtain rfl := Except.ok.inj h
      rw [Node.value, fixed32_eq_ok hkey, fixed32_eq_ok hleaf]
    · rcases ite_eq_ok h with ⟨-, h⟩ | ⟨-, h⟩
      · obtain ⟨left, hleft, h⟩ := bind_eq_ok.mp h
        obtain ⟨right, hright, h⟩ := bind_eq_ok.mp h
        obtain rfl := Except.ok.inj h
        rw [Node.value, fixed32_eq_ok hleft, fixed32_eq_ok hright]
      · cases h
    · cases h
  · cases h

/-- A node that was fetched is stored in its own bytes under its own hash. -/
theorem fetchNode_eq_ok {hash : Hash} {node : Node} (h : fetchNode digest reader hash = .ok node) :
    nodeHash digest node = hash ∧ reader hash = .ok (some node.bytes) := by
  obtain ⟨stored, hstored, h⟩ := bind_eq_ok.mp h
  obtain ⟨encoded, hencoded, h⟩ := bind_eq_ok.mp h
  obtain ⟨node', hdecode, h⟩ := bind_eq_ok.mp h
  obtain ⟨actual, hactual, h⟩ := bind_eq_ok.mp h
  obtain ⟨hsame, h⟩ := ite_error_eq_ok.mp h
  obtain rfl := Except.ok.inj h
  obtain ⟨bytes, hbytes, -⟩ := bind_eq_ok.mp hactual
  obtain ⟨hencodable, -⟩ := Node.encodable_of_encoded hbytes
  rw [hashNode_eq digest hencodable] at hactual
  obtain ⟨value, hvalue, hnode⟩ := bind_eq_ok.mp hdecode
  obtain ⟨-, rfl⟩ := decode_eq_ok_iff.mp (mapError_eq_ok.mp hvalue)
  rw [hstored, okOr_eq_ok.mp hencoded, Node.bytes, Node.ofValue_eq_ok hnode]
  exact ⟨(Except.ok.inj hactual).trans (not_not.mp hsame), rfl⟩

variable {leaves leaves' : Leaves}

theorem mergeLeaves_eq_ok {es : List (Hash × Hash)} (h : mergeLeaves leaves es = .ok leaves')
    (key value : Hash) :
    leaves'[key]? = some value ↔ leaves[key]? = some value ∨ (key, value) ∈ es := by
  induction es generalizing leaves with
  | nil =>
    obtain rfl := Except.ok.inj h
    simp
  | cons e es ih =>
    obtain ⟨k, v⟩ := e
    obtain ⟨hnew, h⟩ := ite_error_eq_ok.mp h
    rw [ih h, Std.ExtTreeMap.getElem?_insert, List.mem_cons, Prod.mk.injEq]
    simp only [Std.compare_eq_iff_eq]
    by_cases hkey : k = key
    · subst hkey
      have habsent : leaves[k]? = none := Std.ExtTreeMap.getElem?_eq_none hnew
      simp [habsent, eq_comm]
    · simp [hkey, Ne.symm hkey]

/-- A test of the leaves that were read is one of the entries of their tree. -/
theorem entries_of_keys {t : Tree} {p : Hash → Bool}
    (hmem : ∀ key value, leaves[key]? = some value ↔
      (∅ : Leaves)[key]? = some value ∨ (key, value) ∈ t.entries) (h : leaves.keys.any p = false) :
      ∀ e ∈ t.entries, p e.1 = false := by
  intro e he
  have hkey : e.1 ∈ leaves.keys := by
    rw [Std.ExtTreeMap.mem_keys, Std.ExtTreeMap.mem_iff_isSome_getElem?,
      (hmem e.1 e.2).mpr (.inr he)]
    rfl
  exact Bool.not_eq_true _ ▸ List.any_eq_false.mp h e.1 hkey

theorem clamp_of_prefixMatches {key : Hash} {start count : Nat} {prefixBytes : List UInt8}
    (hwidth : start + count ≤ 256) (h : prefixMatches key start count prefixBytes = true) :
    clamp key start count = prefixBytes := by
  rw [prefixMatches, copyAndClamp_eq hwidth] at h
  exact beq_iff_eq.mp h

/-- The nodes that were read are a well-formed tree, all of whose nodes the reader has. -/
theorem collectLeaves_tree {levels : Nat} {hash : Hash} {start : Nat} {visited visited' : HashSet}
    (h : collectLeaves digest reader levels hash start visited leaves = .ok (visited', leaves')) :
    ∃ t, TreeWF start t ∧ rootHash digest t = hash ∧ Holds digest reader t ∧
      ∀ key value, leaves'[key]? = some value ↔
        leaves[key]? = some value ∨ (key, value) ∈ t.entries := by
  induction levels generalizing hash start visited visited' leaves leaves' with
  | zero => cases h
  | succ levels ih =>
    obtain ⟨-, h⟩ := ite_error_eq_ok.mp h
    obtain ⟨node, hnode, h⟩ := bind_eq_ok.mp h
    obtain ⟨hhash, hstored⟩ := fetchNode_eq_ok hnode
    cases node with
    | leaf key value =>
      obtain ⟨merged, hmerged, h⟩ := bind_eq_ok.mp h
      obtain ⟨-, rfl⟩ := Prod.mk.inj (Except.ok.inj h)
      refine ⟨.leaf key value, trivial, hhash, ?_, mergeLeaves_eq_ok hmerged⟩
      intro node hmem
      rw [List.mem_singleton.mp hmem, hhash]
      exact hstored
    | interior prefixStart prefixCount prefixBytes left right =>
      obtain ⟨hstart, h⟩ := ite_error_eq_ok.mp h
      obtain ⟨branch, hbranch, h⟩ := bind_eq_ok.mp h
      obtain ⟨⟨visitedL, leavesL⟩, hleft, h⟩ := bind_eq_ok.mp h
      obtain ⟨⟨visitedR, leavesR⟩, hright, h⟩ := bind_eq_ok.mp h
      obtain ⟨hplaced, h⟩ := ite_error_eq_ok.mp h
      obtain ⟨merged, hmerged, h⟩ := bind_eq_ok.mp h
      obtain ⟨-, rfl⟩ := Prod.mk.inj (Except.ok.inj h)
      obtain ⟨tl, hwfL, hhashL, hholdsL, hmemL⟩ := ih hleft
      obtain ⟨tr, hwfR, hhashR, hholdsR, hmemR⟩ := ih hright
      have hbranch := okOr_eq_ok.mp hbranch
      rw [Option.filter_eq_some_iff, checkedAdd_eq_some_iff, decide_eq_true_eq] at hbranch
      obtain ⟨⟨-, hbranch⟩, hlt⟩ := hbranch
      subst hbranch
      obtain rfl : prefixStart.toNat = start := not_not.mp hstart
      rw [Bool.or_eq_true, not_or, Bool.not_eq_true, Bool.not_eq_true] at hplaced
      have hplacedL := entries_of_keys hmemL hplaced.1
      have hplacedR := entries_of_keys hmemR hplaced.2
      simp only [Bool.or_eq_false_iff, Bool.not_eq_false'] at hplacedL hplacedR
      have hclamp : ∀ e ∈ tl.entries ++ tr.entries,
          clamp e.1 prefixStart.toNat prefixCount.toNat = prefixBytes := by
        intro e he
        rcases List.mem_append.mp he with he | he
        · exact clamp_of_prefixMatches (by omega) (hplacedL e he).1
        · exact clamp_of_prefixMatches (by omega) (hplacedR e he).1
      obtain ⟨sample, hsample⟩ := List.exists_mem_of_ne_nil _ tl.entries_ne_nil
      have hsample := hclamp sample (List.mem_append_left _ hsample)
      have hroot : rootNode digest (.fork prefixStart.toNat prefixCount.toNat sample.1 tl tr) =
          .interior prefixStart prefixCount prefixBytes left right := by
        simp [rootNode, hsample, hhashL, hhashR]
      refine ⟨.fork prefixStart.toNat prefixCount.toNat sample.1 tl tr, ⟨⟨rfl, hlt, ?_, ?_, ?_⟩,
        hwfL, hwfR⟩, ?_, ?_, fun key value => ?_⟩
      · intro e he
        exact (clamp_eq_iff (by omega)).mp (hsample.trans (hclamp e he).symm)
      · exact fun e he => (hplacedL e he).2
      · exact fun e he => (hplacedR e he).2
      · rw [rootHash_eq, hroot, hhash]
      · intro node hmem
        rw [treeNodes, hroot, List.mem_append, List.mem_append, List.mem_singleton] at hmem
        rcases hmem with (hmem | hmem) | rfl
        · exact hholdsL node hmem
        · exact hholdsR node hmem
        · rw [hhash]
          exact hstored
      · rw [mergeLeaves_eq_ok hmerged, List.mem_append, Trie.entries, List.mem_append,
          Std.ExtTreeMap.mem_toList_iff_getElem?_eq_some,
          Std.ExtTreeMap.mem_toList_iff_getElem?_eq_some, hmemL, hmemR]
        simp

/-! ## Committing it again -/

theorem newNodes_eq_nil {nodes : List (Hash × List UInt8)}
    (h : ∀ node ∈ nodes, reader node.1 = .ok (some node.2)) : newNodes reader nodes = .ok [] := by
  induction nodes with
  | nil => rfl
  | cons node nodes ih =>
    obtain ⟨hnode, hrest⟩ := List.forall_mem_cons.mp h
    rw [newNodes, hnode, ok_bind]
    simpa using ih hrest

/-- The builder lays the leaves that were read out as the tree they were read from, and the store
    has all of it. -/
theorem build_readLeaves {root : Hash} (hroot : root ≠ emptyRoot)
    (h : readLeaves digest reader root = .ok leaves) :
    leaves ≠ ∅ ∧ ∃ nodes, build digest leaves.toList.length leaves.toList 0 ∅ = .ok (root, nodes) ∧
      ∀ hash encoded, nodes[hash]? = some encoded → reader hash = .ok (some encoded) := by
  rw [readLeaves, if_pos hroot] at h
  obtain ⟨⟨visited, read⟩, hcollect, h⟩ := bind_eq_ok.mp h
  obtain rfl := Except.ok.inj h
  obtain ⟨t, hwf, rfl, hholds, hmem⟩ := collectLeaves_tree hcollect
  obtain ⟨e, he⟩ := List.exists_mem_of_ne_nil _ t.entries_ne_nil
  have hne : read ≠ ∅ := by
    rintro rfl
    simpa using (hmem e.1 e.2).mpr (.inr he)
  obtain ⟨built, hbuilt, hwf', hentries⟩ := treeOf_spec hne
  have hsame (key value : Hash) : (key, value) ∈ t.entries ↔ (key, value) ∈ built.entries := by
    rw [mem_entries_iff hentries, hmem]
    simp
  obtain ⟨hhash, hnodes⟩ := @treeNodes_unique digest _ _ _ hwf hwf'
    (fun e he => (hsame e.1 e.2).mp he) (fun e he => (hsame e.1 e.2).mpr he)
  refine ⟨hne, insertEach ∅ (storedNodes digest built), ?_, fun hash encoded hget => ?_⟩
  · rw [build_treeOf digest hbuilt, hhash]
  · rcases getElem?_insertEach_cases hget with hmem | hnone
    · rw [storedNodes, ← hnodes] at hmem
      obtain ⟨node, hnode, heq⟩ := List.mem_map.mp hmem
      cases heq
      exact hholds node hnode
    · simp at hnone

/-- Whatever the store returns: if the tree below a root is accepted, then a commit without changes
    has this root and no nodes. The canonical tree of its leaves is the tree that was read, and each
    of its nodes is what the store returned. -/
theorem prepare_unchanged {root : Hash} {commit : Commit} (hroot : root ≠ emptyRoot)
    (h : prepare digest reader root [] = .ok commit) :
    commit.root = root ∧ commit.nodes = [] ∧
      ∃ leaves nodes, readLeaves digest reader root = .ok leaves ∧
        build digest leaves.toList.length leaves.toList 0 ∅ = .ok (root, nodes) ∧
        ∀ hash encoded, nodes[hash]? = some encoded → reader hash = .ok (some encoded) := by
  obtain ⟨leaves, hleaves, h⟩ := bind_eq_ok.mp h
  obtain ⟨hne, nodes, hbuild, hstored⟩ := build_readLeaves hroot hleaves
  have hnew : newNodes reader nodes.toList = .ok [] := newNodes_eq_nil fun node hnode =>
    hstored node.1 node.2 (Std.ExtTreeMap.mem_toList_iff_getElem?_eq_some.mp hnode)
  have hempty : ¬ leaves.isEmpty = true := fun hempty => hne (Std.ExtTreeMap.isEmpty_iff.mp hempty)
  rw [applyChanges, ok_bind, if_neg hempty] at h
  simp only at h
  rw [hbuild, ok_bind] at h
  simp only at h
  rw [hnew, ok_bind] at h
  obtain rfl := Except.ok.inj h
  exact ⟨rfl, rfl, leaves, nodes, hleaves, hbuild, hstored⟩

/-- Two leaves whose keys differ in the first bit. -/
def twoLeaves : Tree :=
  .fork 0 0 (.replicate 32 0) (.leaf (.replicate 32 0) (.replicate 32 1))
    (.leaf (.replicate 32 0xaa) (.replicate 32 2))

/-- A store that has the nodes of the two leaves. -/
def twoLeavesReader : NodeReader := fun hash =>
  .ok ((storedNodes Sha512.hash256 twoLeaves).lookup hash)

theorem prepare_unchanged_twoLeaves :
    ∃ commit, prepare Sha512.hash256 twoLeavesReader (rootHash Sha512.hash256 twoLeaves) [] =
        .ok commit ∧
      commit.root = rootHash Sha512.hash256 twoLeaves ∧ commit.leafCount = 2 ∧
      commit.nodes = [] := by
  have hcount : ((prepare Sha512.hash256 twoLeavesReader (rootHash Sha512.hash256 twoLeaves)
      []).toOption.map (·.leafCount)) = some 2 := by decide +kernel
  have hroot : rootHash Sha512.hash256 twoLeaves ≠ emptyRoot := by decide +kernel
  cases h : prepare Sha512.hash256 twoLeavesReader (rootHash Sha512.hash256 twoLeaves) [] with
  | error e =>
    rw [h] at hcount
    cases hcount
  | ok commit =>
    rw [h] at hcount
    obtain ⟨hsame, hnodes, -⟩ := prepare_unchanged hroot h
    exact ⟨commit, rfl, hsame, Option.some.inj hcount, hnodes⟩

end Foks.MerkleStore
