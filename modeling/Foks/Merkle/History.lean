/-
  Histories of the tree store.

  A history is a sequence of change batches, each prepared against the current root and written.
  Over a whole run the store keeps the nodes of every tree it ever had, and nothing else
  (`RunInv`, kept by `commitBatch_inv`), so the root is a function of the final map of leaves, and
  every earlier root can still be read. The hash enters through `HashesOK`: among the nodes of
  the history no two collide and none hashes to the root of the empty tree.
-/
import Foks.Lib.Sha512
import Foks.Merkle.Read

namespace Foks.MerkleStore

open Foks.Lib Foks.Crypto

/-! ## Maps and trees of a history -/

/-- A map of leaves overridden by a batch, change after change. -/
def overrideWith (leaves : Leaves) (changes : List LeafChange) : Leaves :=
  changes.foldl LeafChange.apply leaves

/-- The map of leaves after a history. -/
def mapAfter (batches : List (List LeafChange)) : Leaves := batches.foldl overrideWith ∅

/-- The nodes of the tree of a map; the empty map has none. -/
def nodesOf (digest : Digest) (leaves : Leaves) : List Node :=
  match treeOf leaves with
  | .ok t => treeNodes digest t
  | .error _ => []

/-- The root of the tree of a map. -/
def rootOf (digest : Digest) (leaves : Leaves) : Hash :=
  match treeOf leaves with
  | .ok t => rootHash digest t
  | .error _ => emptyRoot

/-- The nodes of all trees of a history, the one before any batch included. -/
def historyNodes (digest : Digest) (batches : List (List LeafChange)) : List Node :=
  batches.inits.flatMap fun earlier => nodesOf digest (mapAfter earlier)

/-- What is asked of the hash on the nodes it is applied to. -/
structure HashesOK (digest : Digest) (nodes : List Node) : Prop where
  injective : NoCollision digest nodes
  nonempty : ∀ node ∈ nodes, nodeHash digest node ≠ emptyRoot

variable {digest : Digest}

theorem HashesOK.mono {nodes nodes' : List Node} (h : HashesOK digest nodes)
    (hsub : nodes' ⊆ nodes) : HashesOK digest nodes' :=
  ⟨h.injective.mono hsub, fun node hn => h.nonempty node (hsub hn)⟩

/-- The tree of a map, if it has leaves. -/
theorem treeOf_cases (leaves : Leaves) :
    (leaves = ∅ ∧ ∃ e, treeOf leaves = .error e) ∨
      (leaves ≠ ∅ ∧ ∃ t, treeOf leaves = .ok t ∧ TreeWF 0 t ∧ t.entries = leaves.toList) := by
  by_cases h : leaves = ∅
  · subst h
    exact .inl ⟨rfl, _, rfl⟩
  · exact .inr ⟨h, treeOf_spec h⟩

variable {batches : List (List LeafChange)} {changes : List LeafChange} {store : MemoryStore}

theorem mem_historyNodes {node : Node} : node ∈ historyNodes digest batches ↔
      ∃ earlier, earlier <+: batches ∧ node ∈ nodesOf digest (mapAfter earlier) := by
  simp [historyNodes]

theorem historyNodes_mono {batches' : List (List LeafChange)} (h : batches <+: batches') :
    historyNodes digest batches ⊆ historyNodes digest batches' := by
  intro node hn
  obtain ⟨earlier, he, hn⟩ := mem_historyNodes.mp hn
  exact mem_historyNodes.mpr ⟨earlier, he.trans h, hn⟩

theorem nodesOf_subset_historyNodes {digest : Digest} {earlier batches : List (List LeafChange)}
    (h : earlier <+: batches) :
    nodesOf digest (mapAfter earlier) ⊆ historyNodes digest batches :=
  fun _ hn => mem_historyNodes.mpr ⟨earlier, h, hn⟩

@[simp] theorem mapAfter_concat (batches : List (List LeafChange)) (changes : List LeafChange) :
    mapAfter (batches ++ [changes]) = overrideWith (mapAfter batches) changes := by
  simp [mapAfter]

/-! ## Runs -/

structure State where
  store : MemoryStore
  root : Hash

/-- Prepares a batch against the current root and writes the commit. -/
def commitBatch (digest : Digest) (state : State) (changes : List LeafChange) :
    Except Error State := do
  let commit ← prepare digest state.store.getNode state.root changes
  let store ← applyCommit MemoryStore.putNode state.store commit
  .ok ⟨store, commit.root⟩

def runBatches (digest : Digest) (batches : List (List LeafChange)) : Except Error State :=
  batches.foldlM (commitBatch digest) ⟨.empty, emptyRoot⟩

theorem runBatches_concat (digest : Digest) (batches : List (List LeafChange))
    (changes : List LeafChange) :
    runBatches digest (batches ++ [changes]) =
      runBatches digest batches >>= fun state => commitBatch digest state changes := by
  simp [runBatches, List.foldlM_append]

/-! ## The loops of `prepare` and `apply_commit` -/

variable {leaves : Leaves}

/-- A batch goes through exactly when it names no key twice. -/
theorem applyChanges_eq_ok_iff {changed : HashSet} {leaves' : Leaves} :
    applyChanges changed leaves changes = .ok leaves' ↔
      (changes.map LeafChange.key).Nodup ∧ (∀ change ∈ changes, change.key ∉ changed) ∧
        leaves' = overrideWith leaves changes := by
  induction changes generalizing changed leaves with
  | nil => simp [applyChanges, overrideWith, eq_comm]
  | cons change changes ih =>
    rw [applyChanges, ite_error_eq_ok, ih, List.map_cons, List.nodup_cons, List.forall_mem_cons]
    have hstep : overrideWith leaves (change :: changes) =
        overrideWith (change.apply leaves) changes := rfl
    simp only [Std.ExtTreeSet.mem_insert, Std.compare_eq_iff_eq, not_or, hstep, List.mem_map,
      not_exists, not_and]
    grind

variable {nodes : List (Hash × List UInt8)}

theorem newNodes_eq
    (h : ∀ node ∈ nodes, store.nodes[node.1]? = none ∨ store.nodes[node.1]? = some node.2) :
    newNodes store.getNode nodes = .ok (nodes.filter fun node => store.nodes[node.1]?.isNone) := by
  induction nodes with
  | nil => rfl
  | cons node nodes ih =>
    obtain ⟨hash, encoded⟩ := node
    obtain ⟨hnode, hrest⟩ := List.forall_mem_cons.mp h
    rw [newNodes, MemoryStore.getNode, ok_bind]
    rcases hnode with hnone | hsome
    · simp only [hnone]
      rw [ih hrest, ok_bind, List.filter_cons_of_pos (by simp [hnone])]
    · simp only [hsome]
      rw [if_pos trivial, ih hrest, List.filter_cons_of_neg (by simp [hsome])]

theorem applyCommit_eq (hnodup : (nodes.map Prod.fst).Nodup)
    (hfresh : ∀ node ∈ nodes, store.nodes[node.1]? = none) (root : Hash) (leafCount : Nat) :
    applyCommit MemoryStore.putNode store ⟨root, leafCount, nodes⟩ =
      .ok ⟨insertEach store.nodes nodes⟩ := by
  unfold applyCommit
  induction nodes generalizing store with
  | nil => rfl
  | cons node nodes ih =>
    rw [List.map_cons, List.nodup_cons] at hnodup
    obtain ⟨hnode, hrest⟩ := List.forall_mem_cons.mp hfresh
    have hput : store.putNode node.1 node.2 = .ok ⟨store.nodes.insert node.1 node.2⟩ := by
      rw [MemoryStore.putNode, hnode]
    simp only [List.foldlM_cons, hput, ok_bind]
    refine ih hnodup.2 fun other hother => ?_
    rw [getElem?_insert_self_or, if_neg (fun heq => hnodup.1 ?_)]
    · exact hrest other hother
    · exact heq ▸ List.mem_map_of_mem hother

/-! ## One commit -/

/-- The store has only nodes among `nodes`, each under its hash. -/
def OnlyNodes (digest : Digest) (nodes : List Node) (store : MemoryStore) : Prop :=
  ∀ h bytes, store.nodes[h]? = some bytes →
    ∃ node ∈ nodes, h = nodeHash digest node ∧ bytes = node.bytes

/-- The store has all nodes of the tree of a map. -/
def HoldsMap (digest : Digest) (store : MemoryStore) (leaves : Leaves) : Prop :=
  ∀ node ∈ nodesOf digest leaves, store.nodes[nodeHash digest node]? = some node.bytes

/-- What a prepared commit is: the new root, the number of leaves, and the nodes of the new tree
    that the store lacks. -/
structure CommitOK (digest : Digest) (store : MemoryStore) (leaves : Leaves) (commit : Commit) :
    Prop where
  root_eq : commit.root = rootOf digest leaves
  leafCount_eq : commit.leafCount = leaves.toList.length
  nodup : (commit.nodes.map Prod.fst).Nodup
  mem_iff : ∀ h bytes, (h, bytes) ∈ commit.nodes ↔
    (∃ node ∈ nodesOf digest leaves, h = nodeHash digest node ∧ bytes = node.bytes) ∧
      store.nodes[h]? = none

variable {digest : Digest}

/-- The current leaves, read below the root of a map that the store holds. -/
theorem readLeaves_rootOf (hok : HashesOK digest (nodesOf digest leaves))
    (hholds : HoldsMap digest store leaves) :
    readLeaves digest store.getNode (rootOf digest leaves) = .ok leaves := by
  rcases treeOf_cases leaves with ⟨rfl, e, he⟩ | ⟨-, t, ht, hwf, hents⟩
  · rw [rootOf, he]
    rfl
  · unfold HoldsMap at hholds
    simp only [nodesOf, ht] at hok hholds
    have hne : rootHash digest t ≠ emptyRoot := by
      rw [rootHash_eq]
      exact hok.nonempty _ (rootNode_mem digest t)
    have hread := @readLeaves_eq digest store.getNode t hwf
      (fun node hn => congrArg Except.ok (hholds node hn)) hok.injective hne
    rw [rootOf, ht]
    rw [hread, hents, insertEach_toList]

/-- The node map of a build lists the nodes of the tree, each once. -/
theorem mem_builtNodes {t : Tree} (hwf : TreeWF 0 t)
    (hinj : NoCollision digest (treeNodes digest t)) (h : Hash) (bytes : List UInt8) :
    (h, bytes) ∈ (insertEach (∅ : NodeMap) (storedNodes digest t)).toList ↔
      ∃ node ∈ treeNodes digest t, h = nodeHash digest node ∧ bytes = node.bytes := by
  have hnodup : ((storedNodes digest t).map Prod.fst).Nodup := by
    rw [storedNodes, List.map_map]
    exact hashes_nodup hwf hinj
  rw [mem_toList_insertEach hnodup, storedNodes, List.mem_map]
  simp only [Prod.mk.injEq]
  constructor <;> rintro ⟨node, hn, h₁, h₂⟩ <;> exact ⟨node, hn, h₁.symm, h₂.symm⟩

theorem prepare_spec {nodes : List Node} (hok : HashesOK digest nodes)
    (honly : OnlyNodes digest nodes store) (hsub : nodesOf digest leaves ⊆ nodes)
    (hholds : HoldsMap digest store leaves)
    (hsub' : nodesOf digest (overrideWith leaves changes) ⊆ nodes)
    (hchanges : (changes.map LeafChange.key).Nodup) :
    ∃ commit, prepare digest store.getNode (rootOf digest leaves) changes = .ok commit ∧
      CommitOK digest store (overrideWith leaves changes) commit := by
  have hread := readLeaves_rootOf (hok.mono hsub) hholds
  have happly : applyChanges ∅ leaves changes = .ok (overrideWith leaves changes) :=
    applyChanges_eq_ok_iff.mpr ⟨hchanges, by simp, rfl⟩
  unfold prepare
  rw [hread, ok_bind, happly, ok_bind]
  generalize overrideWith leaves changes = new at hsub' ⊢
  rcases treeOf_cases new with ⟨rfl, e, he⟩ | ⟨hne, t, ht, hwf, hents⟩
  · refine ⟨⟨emptyRoot, 0, []⟩, rfl, ?_, rfl, by simp, ?_⟩
    · rw [rootOf, he]
    · simp [nodesOf, he]
  · simp only [nodesOf, ht] at hsub'
    have hinj := hok.injective.mono hsub'
    have hempty : ¬ new.isEmpty = true := fun h => hne (Std.ExtTreeMap.isEmpty_iff.mp h)
    -- a node that is already there has the same bytes, since hashes do not collide
    have hknown : ∀ node ∈ (insertEach (∅ : NodeMap) (storedNodes digest t)).toList,
        store.nodes[node.1]? = none ∨ store.nodes[node.1]? = some node.2 := by
      rintro ⟨h, bytes⟩ hmem
      obtain ⟨node, hn, rfl, rfl⟩ := (mem_builtNodes hwf hinj h bytes).mp hmem
      cases hstored : store.nodes[nodeHash digest node]? with
      | none => exact .inl rfl
      | some existing =>
        obtain ⟨other, ho, hh, rfl⟩ := honly _ _ hstored
        exact .inr (congrArg some (hok.injective other ho node (hsub' hn) hh.symm))
    rw [if_neg hempty]
    simp only
    rw [build_treeOf digest ht, ok_bind]
    rw [newNodes_eq hknown, ok_bind]
    refine ⟨_, rfl, ?_, rfl, ?_, fun h bytes => ?_⟩
    · simp only [rootOf, ht]
    · exact ((List.filter_sublist).map _).nodup (nodup_keys_toList _)
    · simp only [nodesOf, ht]
      rw [List.mem_filter, mem_builtNodes hwf hinj]
      simp

/-! ## Whole runs -/

/-- What holds after every history: the store has the nodes of all its trees, and no others. -/
structure RunInv (digest : Digest) (batches : List (List LeafChange)) (state : State) : Prop where
  root_eq : state.root = rootOf digest (mapAfter batches)
  holds : ∀ earlier, earlier <+: batches → HoldsMap digest state.store (mapAfter earlier)
  only : OnlyNodes digest (historyNodes digest batches) state.store

theorem runInv_nil : RunInv digest [] ⟨.empty, emptyRoot⟩ := by
  refine ⟨rfl, ?_, fun h bytes hstored => ?_⟩
  · intro earlier he node hn
    rw [List.prefix_nil.mp he] at hn
    exact absurd hn (by simp [nodesOf, mapAfter, treeOf, layout])
  · simp [MemoryStore.empty] at hstored

/-- Writing a prepared commit keeps what was there and adds the nodes of the new tree. -/
theorem getElem?_applyCommit {commit : Commit} (h : CommitOK digest store leaves commit) :
    ∃ store', applyCommit MemoryStore.putNode store commit = .ok store' ∧
      ∀ hash bytes, store'.nodes[hash]? = some bytes ↔
        (∃ node ∈ nodesOf digest leaves, hash = nodeHash digest node ∧ bytes = node.bytes) ∧
          store.nodes[hash]? = none ∨ store.nodes[hash]? = some bytes := by
  have hfresh : ∀ node ∈ commit.nodes, store.nodes[node.1]? = none :=
    fun node hn => ((h.mem_iff node.1 node.2).mp hn).2
  refine ⟨_, applyCommit_eq h.nodup hfresh commit.root commit.leafCount, fun hash bytes => ?_⟩
  rw [getElem?_insertEach h.nodup, h.mem_iff]
  refine or_congr_right ⟨fun h => h.2, fun hstored => ⟨fun hmem => ?_, hstored⟩⟩
  obtain ⟨node, hn, rfl⟩ := List.mem_map.mp hmem
  rw [hfresh node hn] at hstored
  cases hstored

variable {state : State}

theorem commitBatch_inv (hok : HashesOK digest (historyNodes digest (batches ++ [changes])))
    (hinv : RunInv digest batches state) (hchanges : (changes.map LeafChange.key).Nodup) :
    ∃ commit state', prepare digest state.store.getNode state.root changes = .ok commit ∧
      CommitOK digest state.store (mapAfter (batches ++ [changes])) commit ∧
      commitBatch digest state changes = .ok state' ∧
      RunInv digest (batches ++ [changes]) state' := by
  have hpre : batches <+: batches ++ [changes] := List.prefix_append _ _
  have hnew := @nodesOf_subset_historyNodes digest _ _ (List.prefix_refl (batches ++ [changes]))
  have honly : OnlyNodes digest (historyNodes digest (batches ++ [changes])) state.store := by
    intro h bytes hstored
    obtain ⟨node, hn, hh⟩ := hinv.only h bytes hstored
    exact ⟨node, historyNodes_mono hpre hn, hh⟩
  obtain ⟨commit, hprep, hcommit⟩ := prepare_spec hok honly
    (nodesOf_subset_historyNodes hpre) (hinv.holds batches (List.prefix_refl _))
    (by rwa [mapAfter_concat] at hnew) hchanges
  rw [← mapAfter_concat] at hcommit
  rw [← hinv.root_eq] at hprep
  obtain ⟨store', happly, hget⟩ := getElem?_applyCommit hcommit
  refine ⟨commit, ⟨store', commit.root⟩, hprep, hcommit, ?_, hcommit.root_eq, ?_, ?_⟩
  · rw [commitBatch, hprep, ok_bind, happly]
    rfl
  · intro earlier he node hn
    rw [hget]
    rcases List.prefix_concat_iff.mp he with rfl | he
    · -- a node of the new tree: written now, or there before with the same bytes
      cases hstored : state.store.nodes[nodeHash digest node]? with
      | none => exact .inl ⟨⟨node, hn, rfl, rfl⟩, rfl⟩
      | some existing =>
        obtain ⟨other, ho, hh, rfl⟩ := honly _ _ hstored
        exact .inr (congrArg some (hok.injective other ho node (hnew hn) hh.symm))
    · exact .inr (hinv.holds earlier he node hn)
  · intro h bytes hstored
    rcases (hget h bytes).mp hstored with ⟨⟨node, hn, hh⟩, -⟩ | hstored
    · exact ⟨node, hnew hn, hh⟩
    · exact honly h bytes hstored

/-- A history whose batches name no key twice runs through. -/
theorem runBatches_ok (batches : List (List LeafChange))
    (hok : HashesOK digest (historyNodes digest batches))
    (hchanges : ∀ changes ∈ batches, (changes.map LeafChange.key).Nodup) :
    ∃ state, runBatches digest batches = .ok state ∧ RunInv digest batches state := by
  induction batches using List.reverseRecOn with
  | nil => exact ⟨_, rfl, runInv_nil⟩
  | append_singleton batches changes ih =>
    obtain ⟨state, hrun, hinv⟩ := ih (hok.mono (historyNodes_mono (List.prefix_append _ _)))
      (fun earlier he => hchanges earlier (List.mem_append_left _ he))
    obtain ⟨-, state', -, -, hstep, hinv'⟩ := commitBatch_inv hok hinv
      (hchanges changes (by simp))
    refine ⟨state', ?_, hinv'⟩
    rw [runBatches_concat, hrun, ok_bind, hstep]

theorem runBatches_nodup (h : runBatches digest batches = .ok state) :
    ∀ changes ∈ batches, (changes.map LeafChange.key).Nodup := by
  induction batches using List.reverseRecOn generalizing state with
  | nil => simp
  | append_singleton batches changes ih =>
    rw [runBatches_concat] at h
    obtain ⟨before, hrun, h⟩ := bind_eq_ok.mp h
    obtain ⟨commit, hprep, -⟩ := bind_eq_ok.mp h
    obtain ⟨leaves, -, hprep⟩ := bind_eq_ok.mp hprep
    obtain ⟨leaves', happly, -⟩ := bind_eq_ok.mp hprep
    intro earlier he
    rcases List.mem_append.mp he with he | he
    · exact ih hrun earlier he
    · rw [List.mem_singleton.mp he]
      exact (applyChanges_eq_ok_iff.mp happly).1

theorem runInv_of_run (hok : HashesOK digest (historyNodes digest batches))
    (hrun : runBatches digest batches = .ok state) : RunInv digest batches state := by
  obtain ⟨state', hrun', hinv⟩ := runBatches_ok batches hok (runBatches_nodup hrun)
  rw [hrun] at hrun'
  cases hrun'
  exact hinv

theorem run_of_prefix {earlier : List (List LeafChange)}
    (hok : HashesOK digest (historyNodes digest batches))
    (hrun : runBatches digest batches = .ok state) (he : earlier <+: batches) :
    ∃ before, runBatches digest earlier = .ok before ∧ RunInv digest earlier before :=
  runBatches_ok earlier (hok.mono (historyNodes_mono he))
    fun changes hc => runBatches_nodup hrun changes (he.subset hc)

/-- **History independence.** A history whose batches name no key twice runs through (and no
    other one does, `runBatches_nodup`). Its root then has the leaves of the batches applied in
    order; any other history with the same leaves has the same root; each commit on the way wrote
    exactly the nodes of its new tree that were not there; and every earlier root still has its
    own leaves in the final store. -/
theorem runBatches_history_independent (batches : List (List LeafChange))
    (hok : HashesOK digest (historyNodes digest batches))
    (hkeys : ∀ changes ∈ batches, (changes.map LeafChange.key).Nodup) :
    ∃ state, runBatches digest batches = .ok state ∧
      readLeaves digest state.store.getNode state.root = .ok (mapAfter batches) ∧
      (∀ batches' state', HashesOK digest (historyNodes digest batches') →
        runBatches digest batches' = .ok state' → mapAfter batches' = mapAfter batches →
        state'.root = state.root) ∧
      (∀ earlier changes, earlier ++ [changes] <+: batches →
        ∃ before commit, runBatches digest earlier = .ok before ∧
          prepare digest before.store.getNode before.root changes = .ok commit ∧
          CommitOK digest before.store (overrideWith (mapAfter earlier) changes) commit) ∧
      (∀ earlier, earlier <+: batches →
        ∃ before, runBatches digest earlier = .ok before ∧
          readLeaves digest state.store.getNode before.root = .ok (mapAfter earlier)) := by
  obtain ⟨state, hrun, hinv⟩ := runBatches_ok batches hok hkeys
  refine ⟨state, hrun, ?_, ?_, ?_, ?_⟩
  · rw [hinv.root_eq]
    exact readLeaves_rootOf (hok.mono (nodesOf_subset_historyNodes (List.prefix_refl _)))
      (hinv.holds batches (List.prefix_refl _))
  · intro batches' state' hok' hrun' hmap
    rw [hinv.root_eq, (runInv_of_run hok' hrun').root_eq, hmap]
  · intro earlier changes he
    have hpre : earlier <+: batches := (List.prefix_append _ _).trans he
    obtain ⟨before, hbefore, hbinv⟩ := run_of_prefix hok hrun hpre
    obtain ⟨commit, -, hprep, hcommit, -, -⟩ := commitBatch_inv
      (hok.mono (historyNodes_mono he)) hbinv (hkeys changes (he.subset (by simp)))
    rw [mapAfter_concat] at hcommit
    exact ⟨before, commit, hbefore, hprep, hcommit⟩
  · intro earlier he
    obtain ⟨before, hbefore, hbinv⟩ := run_of_prefix hok hrun he
    refine ⟨before, hbefore, ?_⟩
    rw [hbinv.root_eq]
    exact readLeaves_rootOf (hok.mono (nodesOf_subset_historyNodes he)) (hinv.holds earlier he)

/-- The root binds the map: histories that end at one root have the same leaves, unless two of their
    nodes have the same hash. -/
theorem root_binds_map {nodes : List Node} {batches' : List (List LeafChange)} {state' : State}
    (hok : HashesOK digest nodes) (hsub : historyNodes digest batches ⊆ nodes)
    (hsub' : historyNodes digest batches' ⊆ nodes) (hrun : runBatches digest batches = .ok state)
    (hrun' : runBatches digest batches' = .ok state') (hroot : state.root = state'.root) :
    mapAfter batches = mapAfter batches' := by
  rw [(runInv_of_run (hok.mono hsub) hrun).root_eq,
    (runInv_of_run (hok.mono hsub') hrun').root_eq] at hroot
  have hlast := List.Subset.trans (nodesOf_subset_historyNodes (List.prefix_refl batches)) hsub
  have hlast' := List.Subset.trans (nodesOf_subset_historyNodes (List.prefix_refl batches')) hsub'
  rcases treeOf_cases (mapAfter batches) with ⟨he, _, ht⟩ | ⟨-, t, ht, hwf, hents⟩ <;>
    rcases treeOf_cases (mapAfter batches') with ⟨he', _, ht'⟩ | ⟨-, t', ht', hwf', hents'⟩ <;>
    simp only [rootOf, nodesOf, ht, ht'] at hroot hlast hlast'
  · rw [he, he']
  · rw [rootHash_eq] at hroot
    exact absurd hroot.symm (hok.nonempty _ (hlast' (rootNode_mem digest t')))
  · rw [rootHash_eq] at hroot
    exact absurd hroot (hok.nonempty _ (hlast (rootNode_mem digest t)))
  · rw [← insertEach_toList (mapAfter batches), ← hents,
      entries_eq_of_rootHash hok.injective hwf hwf' hlast hlast' hroot, hents', insertEach_toList]

/-! ## A history under SHA-512/256 -/

/-- Two batches: a leaf below the zero bit, then one below the one bit. -/
def twoBatches : List (List LeafChange) :=
  [[.set (.replicate 32 0) (.replicate 32 1)], [.set (.replicate 32 0xff) (.replicate 32 2)]]

set_option maxRecDepth 10000 in
theorem twoBatches_hashesOK :
    HashesOK Sha512.hash256 (historyNodes Sha512.hash256 twoBatches) :=
  ⟨by decide +kernel, by decide +kernel⟩

/-- The history independence of these two batches. -/
theorem twoBatches_history_independent :
    (∀ changes ∈ twoBatches, (changes.map LeafChange.key).Nodup) ∧
    ∃ state, runBatches Sha512.hash256 twoBatches = .ok state ∧
      readLeaves Sha512.hash256 state.store.getNode state.root = .ok (mapAfter twoBatches) ∧
      ∃ before, runBatches Sha512.hash256 (twoBatches.take 1) = .ok before ∧
        readLeaves Sha512.hash256 state.store.getNode before.root =
          .ok (mapAfter (twoBatches.take 1)) := by
  have hkeys : ∀ changes ∈ twoBatches, (changes.map LeafChange.key).Nodup := by decide
  obtain ⟨state, hrun, hread, -, -, hearlier⟩ :=
    runBatches_history_independent twoBatches twoBatches_hashesOK hkeys
  exact ⟨hkeys, state, hrun, hread, hearlier _ (List.take_prefix 1 _)⟩

theorem flatten_root_binds : mapAfter twoBatches = mapAfter [twoBatches.flatten] := by
  have hsub : historyNodes Sha512.hash256 [twoBatches.flatten] ⊆
      historyNodes Sha512.hash256 twoBatches := by decide +kernel
  obtain ⟨_, hrun, hinv⟩ := runBatches_ok twoBatches twoBatches_hashesOK (by decide)
  obtain ⟨_, hrun', hinv'⟩ := runBatches_ok _ (twoBatches_hashesOK.mono hsub) (by decide)
  refine root_binds_map twoBatches_hashesOK (List.Subset.refl _) hsub hrun hrun' ?_
  rw [hinv.root_eq, hinv'.root_eq]
  rfl

end Foks.MerkleStore
