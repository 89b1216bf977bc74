/-
  Completeness of path verification: the verifier accepts the paths the store produces.

  By induction on the tree: the path of a key records at each fork what the verifier needs to put
  the same node together again, and its three ends (the key's leaf, another leaf, a prefix the
  key does not have) pass the verifier's checks when the caller expects what is true.
-/
import Foks.Merkle.Proof
import Foks.Verify.PathSound

namespace Foks.Verify

open Foks.Lib Foks.Snowpack Foks.Crypto Foks.Proto
open MerkleStore (Node Tree TreeWF nodeHash rootHash rootNode treePath clamp)

variable {digest : Digest} {queryKey : Hash}

/-- What the verifier makes of a path, up to the comparison with the root. -/
structure Accepts (digest : Digest) (queryKey : Hash) (expected : ExpectedLeaf) (cursor : Nat)
    (path : MerklePathCompressed) (root : Hash) : Prop where
  run : ∃ interiors stop node, walkEdges queryKey path.edges cursor = .ok (interiors, stop) ∧
    terminalValue queryKey expected stop path.terminal = .ok (Node.value node) ∧
    node.Encodable ∧ climb digest interiors (nodeHash digest node) = .ok root

variable {expected : ExpectedLeaf}

theorem Accepts.verify {path : MerklePathCompressed} {root : Hash}
    (h : Accepts digest queryKey expected 0 path root) :
    verifyMerklePathWith digest path queryKey expected root = .ok () := by
  obtain ⟨interiors, stop, node, hwalk, hterminal, henc, hclimb⟩ := h.run
  rw [verifyMerklePathWith, hwalk, ok_bind]
  simp only
  rw [hterminal, ok_bind, hashValue_eq_ok.mpr ⟨henc, rfl⟩, ok_bind, hclimb, ok_bind, if_pos rfl]

theorem accepts_leaf {cursor : Nat} {key value : Hash} (hcursor : cursor ≤ 256)
    (hagree : AgreeOn MerkleStore.bitAt 0 cursor key queryKey)
    (htrue : expected.TrueOf queryKey [(key, value)]) :
    Accepts digest queryKey expected cursor (treePath digest queryKey (.leaf key value))
      (rootHash digest (.leaf key value)) := by
  refine ⟨[], cursor, .leaf key value, rfl, ?_, trivial, rfl⟩
  rw [treePath, terminalValue]
  by_cases hk : key = queryKey
  · subst hk
    have haccepts : expected.accepts key value none = true := by
      cases expected with
      | absent => exact absurd (List.mem_singleton.mpr rfl) (htrue value)
      | exact leaf =>
        have : (key, leaf) ∈ [(key, value)] := htrue
        simp [ExpectedLeaf.accepts, (by simpa using this : leaf = value)]
      | present => rfl
    have hnone : (if key ≠ key then some key else none) = none := if_neg (by simp)
    rw [hnone, haccepts, if_neg (by simp), if_neg (by simp)]
    rfl
  · have haccepts : expected.accepts queryKey value (some key) = true := by
      cases expected with
      | absent => simpa [ExpectedLeaf.accepts] using hk
      | exact leaf =>
        have : (queryKey, leaf) ∈ [(key, value)] := htrue
        simp [Ne.symm hk] at this
      | present =>
        obtain ⟨leaf, h⟩ := htrue
        simp [Ne.symm hk] at h
    have hbits : bitsEqual queryKey.bytes key.bytes cursor = true :=
      (bitsEqual_iff hcursor).mpr hagree.symm
    rw [if_pos hk, haccepts, if_neg (by simp), if_neg (by simp [hbits])]
    rfl

theorem accepts_prefixMiss {start count : Nat} {sample : Hash} {left right : Tree}
    (hwf : TreeWF start (.fork start count sample left right))
    (hmiss : ¬ AgreeOn MerkleStore.bitAt start (start + count) sample queryKey)
    (htrue : expected.TrueOf queryKey (Trie.fork start count sample left right).entries) :
    Accepts digest queryKey expected start
      (treePath digest queryKey (.fork start count sample left right))
      (rootHash digest (.fork start count sample left right)) := by
  have hlt := hwf.1.branch_lt
  have hnot (leaf : Hash) :
      (queryKey, leaf) ∉ (Trie.fork start count sample left right).entries :=
    fun hmem => hmiss ((hwf.mem_fork_iff queryKey leaf).mp hmem).1
  have habsent : expected = .absent := by
    cases expected with
    | absent => rfl
    | exact leaf => exact absurd htrue (hnot leaf)
    | present =>
      obtain ⟨leaf, h⟩ := htrue
      exact absurd h (hnot leaf)
  have hs : (UInt64.ofNat start).toNat = start := toNat_ofNat64 (by omega)
  have hc : (UInt64.ofNat count).toNat = count := toNat_ofNat64 (by omega)
  have hstore : ¬ MerkleStore.prefixMatches queryKey start count (clamp sample start count) =
    true :=
    fun h => hmiss ((MerkleStore.prefixMatches_clamp (by omega)).mp h)
  have hverify : ¬ prefixMatches queryKey.bytes (clamp sample start count) start count = true :=
    fun h => hmiss ((prefixMatches_clamp_iff (by omega)).mp h)
  refine ⟨[], start, rootNode digest (.fork start count sample left right), ?_, ?_,
    (MerkleStore.rootNode_ok digest hwf).1, rfl⟩
  · rw [treePath, if_neg hstore]
    rfl
  · rw [treePath, if_neg hstore, terminalValue, hs, hc, if_neg (by simp [habsent, hverify])]
    rfl

theorem walkEdges_make {count cursor stop : Nat} {sibling : Hash} {edges : List Edge}
    {rest : List Interior} (hlt : cursor + count < 256)
    (h : walkEdges queryKey edges (cursor + count + 1) = .ok (rest, stop)) :
    walkEdges queryKey (.make (UInt8.ofNat count) sibling :: edges) cursor =
      .ok (⟨cursor, count, clamp queryKey cursor count,
        MerkleStore.bitAt queryKey (cursor + count), sibling⟩ :: rest, stop) := by
  have hc : (UInt8.ofNat count).toNat = count := UInt8.toNat_ofNat_of_lt' (by
    unfold UInt8.size; omega)
  rw [walkEdges]
  simp only [Edge.count_make, Edge.sibling_make, hc]
  rw [copyAndClamp_eq_some (by omega), checkedAdd_eq_some (by omega)]
  simp only [okOr, ok_bind]
  rw [bitAt_of_lt hlt]
  simp only [ok_bind]
  rw [h, ok_bind]
  have hstart : cursor + count + 1 - count - 1 = cursor := by omega
  simp only [hstart]

/-- One more edge in front: the fork is put together again from the key's bits. -/
theorem accepts_fork {expected : ExpectedLeaf} {start count : Nat} {sample : Hash}
    {left right : Tree} {path : MerklePathCompressed}
    (hwf : TreeWF start (.fork start count sample left right))
    (hagree : AgreeOn MerkleStore.bitAt start (start + count) sample queryKey)
    (h : Accepts digest queryKey expected (start + count + 1) path
      (rootHash digest (if MerkleStore.bitAt queryKey (start + count) then right else left))) :
    Accepts digest queryKey expected start
      (path.cons (.make (UInt8.ofNat count)
        (rootHash digest (if MerkleStore.bitAt queryKey (start + count) then left else right))))
      (rootHash digest (.fork start count sample left right)) := by
  have hlt := hwf.1.branch_lt
  obtain ⟨interiors, stop, node, hwalk, hterminal, henc, hclimb⟩ := h.run
  refine ⟨_, stop, node, walkEdges_make hlt hwalk, hterminal, henc, ?_⟩
  have hclamp := (MerkleStore.clamp_eq_iff (by omega)).mpr hagree
  have hnode : Interior.node ⟨start, count, clamp queryKey start count,
      MerkleStore.bitAt queryKey (start + count),
      rootHash digest (if MerkleStore.bitAt queryKey (start + count) then left else right)⟩
      (rootHash digest (if MerkleStore.bitAt queryKey (start + count) then right else left)) =
        rootNode digest (.fork start count sample left right) := by
    rw [Interior.node, rootNode, hclamp]
    cases MerkleStore.bitAt queryKey (start + count) <;> rfl
  rw [climb_cons, hclimb, ok_bind, Interior.value_eq, hnode]
  exact hashValue_eq_ok.mpr ⟨(MerkleStore.rootNode_ok digest hwf).1, MerkleStore.rootHash_eq ..⟩

/-- The verifier accepts the path a tree gives for a key, for everything true of the key. -/
theorem accepts_treePath {expected : ExpectedLeaf} (cursor : Nat) (t : Tree)
    (hcursor : cursor ≤ 256)
    (hwf : TreeWF cursor t)
    (hagree : ∀ e ∈ t.entries, AgreeOn MerkleStore.bitAt 0 cursor e.1 queryKey)
    (htrue : expected.TrueOf queryKey t.entries) :
    Accepts digest queryKey expected cursor (treePath digest queryKey t) (rootHash digest t) := by
  induction t generalizing cursor with
  | leaf key value =>
    exact accepts_leaf hcursor (hagree (key, value) (by simp [Trie.entries])) htrue
  | fork s count sample left right ihl ihr =>
    obtain rfl : s = cursor := hwf.1.start_eq
    have hlt := hwf.1.branch_lt
    by_cases hclamp : AgreeOn MerkleStore.bitAt s (s + count) sample queryKey
    · have hchild := MerkleStore.agree_child hwf hagree hclamp
      have htrue' := (ExpectedLeaf.trueOf_congr (fun v => (hwf.mem_fork_iff queryKey v).trans
        (and_iff_right hclamp)) expected).mp htrue
      have hstore := (MerkleStore.prefixMatches_clamp (by omega)).mpr hclamp
      have hnext := @accepts_fork digest queryKey expected s count sample left right
      rw [treePath, if_pos hstore]
      cases hb : MerkleStore.bitAt queryKey (s + count) with
      | true =>
        simp only [hb, if_true] at hchild htrue' hnext ⊢
        exact hnext hwf hclamp (ihr (s + count + 1) (by omega) hwf.2.2 hchild htrue')
      | false =>
        simp only [hb, Bool.false_eq_true, if_false] at hchild htrue' hnext ⊢
        exact hnext hwf hclamp (ihl (s + count + 1) (by omega) hwf.2.1 hchild htrue')
    · exact accepts_prefixMiss hwf hclamp htrue

/-! ## Every reachable store -/

section

open MerkleStore

/-- **Proof completeness.** In every store and root that a history reaches, with at least one
    leaf, `proof` returns a path for every key, and the verifier accepts it for what the map says
    of the key. -/
theorem proof_complete (digest : Digest) (batches : List (List LeafChange)) (state : State)
    (hok : HashesOK digest (historyNodes digest batches))
    (hrun : runBatches digest batches = .ok state) (hne : mapAfter batches ≠ ∅) (q : Hash) :
    ∃ path, proof digest state.store.getNode state.root q = .ok path ∧
      verifyMerklePath digest path q (mapAfter batches)[q]? state.root = .ok () ∧
      (q ∈ mapAfter batches → verifyMerklePathPresent digest path q state.root = .ok ()) := by
  have hinv := runInv_of_run hok hrun
  obtain ⟨t, ht, hwf, hents⟩ := treeOf_spec hne
  have hnodes : nodesOf digest (mapAfter batches) = treeNodes digest t := by rw [nodesOf, ht]
  have hok' := hok.mono (nodesOf_subset_historyNodes (List.prefix_refl batches))
  have hholds := hinv.holds batches (List.prefix_refl _)
  have hroot : state.root = rootHash digest t := by rw [hinv.root_eq, rootOf, ht]
  unfold HoldsMap at hholds
  rw [hnodes] at hok' hholds
  have hnonempty : rootHash digest t ≠ emptyRoot := by
    rw [rootHash_eq]
    exact hok'.nonempty _ (rootNode_mem digest t)
  have hproof := @proof_eq digest state.store.getNode q t hwf
    (fun node hn => congrArg Except.ok (hholds node hn)) hok'.injective hnonempty
  have hmem (v : Hash) := mem_entries_iff hents q v
  have haccept (expected : ExpectedLeaf) (htrue : expected.TrueOf q t.entries) :=
    (@accepts_treePath digest q expected 0 t (by omega) hwf
      (fun _ _ _ _ hi => absurd hi (by omega)) htrue).verify
  rw [hroot]
  refine ⟨_, hproof, ?_, fun hq => haccept .present ?_⟩
  · cases hleaf : (mapAfter batches)[q]? with
    | none =>
      refine haccept .absent fun v hv => ?_
      rw [(hmem v).mp hv] at hleaf
      cases hleaf
    | some v => exact haccept (.exact v) ((hmem v).mpr hleaf)
  · obtain ⟨v, hv⟩ := Option.isSome_iff_exists.mp (Std.ExtTreeMap.mem_iff_isSome_getElem?.mp hq)
    exact ⟨v, (hmem v).mpr hv⟩

/-- The second state of `twoBatches` proves a key absent under its second leaf. -/
theorem proof_complete_twoBatches :
    ∃ state path, runBatches Sha512.hash256 twoBatches = .ok state ∧ mapAfter twoBatches ≠ ∅ ∧
      proof Sha512.hash256 state.store.getNode state.root (.replicate 32 0xaa) = .ok path ∧
      verifyMerklePath Sha512.hash256 path (.replicate 32 0xaa)
        (mapAfter twoBatches)[(FixedBytes.replicate 32 0xaa : Hash)]? state.root = .ok () := by
  have hne : mapAfter twoBatches ≠ ∅ := fun h => absurd (congrArg (·.isEmpty) h) (by decide)
  obtain ⟨state, hrun, -⟩ := runBatches_ok twoBatches twoBatches_hashesOK (by decide)
  obtain ⟨path, hproof, hverify, -⟩ :=
    proof_complete Sha512.hash256 twoBatches state twoBatches_hashesOK hrun hne (.replicate 32 0xaa)
  exact ⟨state, path, hrun, hne, hproof, hverify⟩

end

end Foks.Verify
