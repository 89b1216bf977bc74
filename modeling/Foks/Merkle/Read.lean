/-
  Reading a stored tree back.

  A reader that holds every node of a well-formed tree gives all its leaves back
  (`collectLeaves_eq`): each fetched node decodes and has its address, no hash comes twice
  (`hashes_nodup`), and every leaf is on the side its key belongs to.
-/
import Foks.Merkle.Layout

namespace Foks.MerkleStore

open Foks.Lib Foks.Snowpack Foks.Crypto

variable {digest : Digest}

/-! ## Distinct hashes -/

theorem treeNodes_left_subset (start count : Nat) (sample : Hash) (left right : Tree) :
    treeNodes digest left ⊆ treeNodes digest (.fork start count sample left right) :=
  fun node h => by simp [treeNodes, h]

theorem treeNodes_right_subset (start count : Nat) (sample : Hash) (left right : Tree) :
    treeNodes digest right ⊆ treeNodes digest (.fork start count sample left right) :=
  fun node h => by simp [treeNodes, h]

variable {nodes : List Node} {t t' : Tree} {s s' : Nat}

/-- Well-formed trees among whose nodes there is no collision, with the same root hash, have the
    same root node. -/
theorem rootNode_eq_of_rootHash (hinj : NoCollision digest nodes) (hwf : TreeWF s t)
    (hwf' : TreeWF s' t') (hsub : treeNodes digest t ⊆ nodes) (hsub' : treeNodes digest t' ⊆ nodes)
    (h : rootHash digest t = rootHash digest t') : rootNode digest t = rootNode digest t' := by
  rw [rootHash_eq, rootHash_eq] at h
  exact hinj.eq (hsub (rootNode_mem digest t)) (hsub' (rootNode_mem digest t'))
    (rootNode_ok digest hwf).1 (rootNode_ok digest hwf').1 h

theorem entries_eq_of_rootHash (hinj : NoCollision digest nodes) (hwf : TreeWF s t)
    (hwf' : TreeWF s' t') (hsub : treeNodes digest t ⊆ nodes) (hsub' : treeNodes digest t' ⊆ nodes)
    (h : rootHash digest t = rootHash digest t') : t.entries = t'.entries := by
  induction t generalizing s s' t' with
  | leaf key value =>
    have hroot := rootNode_eq_of_rootHash hinj hwf hwf' hsub hsub' h
    cases t' with
    | leaf key' value' =>
      simp only [rootNode, Node.leaf.injEq] at hroot
      simp [Trie.entries, hroot]
    | fork => cases hroot
  | fork start count sample left right ihl ihr =>
    have hroot := rootNode_eq_of_rootHash hinj hwf hwf' hsub hsub' h
    cases t' with
    | leaf => cases hroot
    | fork start' count' sample' left' right' =>
      simp only [rootNode, Node.interior.injEq] at hroot
      obtain ⟨-, -, -, hl, hr⟩ := hroot
      rw [Trie.entries, Trie.entries,
        ihl hwf.2.1 hwf'.2.1 (List.Subset.trans (treeNodes_left_subset ..) hsub)
          (List.Subset.trans (treeNodes_left_subset ..) hsub') hl,
        ihr hwf.2.2 hwf'.2.2 (List.Subset.trans (treeNodes_right_subset ..) hsub)
          (List.Subset.trans (treeNodes_right_subset ..) hsub') hr]

theorem exists_subtree (hwf : TreeWF s t) {node : Node} (h : node ∈ treeNodes digest t) :
    ∃ s' sub, TreeWF s' sub ∧ rootNode digest sub = node ∧
      treeNodes digest sub ⊆ treeNodes digest t ∧ sub.entries ⊆ t.entries := by
  induction t generalizing s with
  | leaf key value =>
    rw [treeNodes, List.mem_singleton] at h
    exact ⟨s, .leaf key value, hwf, h.symm, fun _ h => h, fun _ h => h⟩
  | fork start count sample left right ihl ihr =>
    rcases List.mem_append.mp h with h | h
    · rcases List.mem_append.mp h with h | h
      · obtain ⟨s', sub, hsub, hroot, hnodes, hents⟩ := ihl hwf.2.1 h
        exact ⟨s', sub, hsub, hroot, List.Subset.trans hnodes (treeNodes_left_subset ..),
          List.Subset.trans hents (List.subset_append_left _ _)⟩
      · obtain ⟨s', sub, hsub, hroot, hnodes, hents⟩ := ihr hwf.2.2 h
        exact ⟨s', sub, hsub, hroot, List.Subset.trans hnodes (treeNodes_right_subset ..),
          List.Subset.trans hents (List.subset_append_right _ _)⟩
    · exact ⟨s, _, hwf, (List.mem_singleton.mp h).symm, fun _ h => h, fun _ h => h⟩

/-- A tree whose root hash is the hash of some node of another tree has only entries of that. -/
theorem entries_subset_of_hash (hinj : NoCollision digest nodes) (hwf : TreeWF s t)
    (hwf' : TreeWF s' t') (hsub : treeNodes digest t ⊆ nodes) (hsub' : treeNodes digest t' ⊆ nodes)
    {a : Node} (ha : a ∈ treeNodes digest t') (h : nodeHash digest a = rootHash digest t) :
    t.entries ⊆ t'.entries := by
  obtain ⟨_, u, hu, rfl, hnodes, hents⟩ := exists_subtree hwf' ha
  rw [← rootHash_eq] at h
  rw [← entries_eq_of_rootHash hinj hu hwf (List.Subset.trans hnodes hsub') hsub h]
  exact hents

variable {sample : Hash}

theorem fork_disjoint {start count : Nat} {left right : Tree}
    (hwf : TreeWF s (.fork start count sample left right)) {e : Hash × Hash}
    (hl : e ∈ left.entries) : e ∉ right.entries :=
  fun hr => hwf.sides_differ hl hr rfl

theorem hashes_nodup (hwf : TreeWF s t) (hinj : NoCollision digest (treeNodes digest t)) :
    ((treeNodes digest t).map (nodeHash digest)).Nodup := by
  induction t generalizing s with
  | leaf key value => simp [treeNodes]
  | fork start count sample left right ihl ihr =>
    have hl := ihl hwf.2.1 (hinj.mono (treeNodes_left_subset ..))
    have hr := ihr hwf.2.2 (hinj.mono (treeNodes_right_subset ..))
    obtain ⟨el, hel⟩ := List.exists_mem_of_ne_nil _ left.entries_ne_nil
    obtain ⟨er, her⟩ := List.exists_mem_of_ne_nil _ right.entries_ne_nil
    rw [treeNodes, List.map_append, List.map_append, List.nodup_append, List.nodup_append]
    refine ⟨⟨hl, hr, ?_⟩, by simp, ?_⟩
    · -- a node on either side with one hash: its entries would be on both sides
      intro h hal h' har heq
      obtain ⟨a, ha, rfl⟩ := List.mem_map.mp hal
      obtain ⟨b, hb, rfl⟩ := List.mem_map.mp har
      obtain ⟨_, u, huwf, rfl, hun, hue⟩ := exists_subtree hwf.2.2 hb
      obtain ⟨e, he⟩ := List.exists_mem_of_ne_nil _ u.entries_ne_nil
      rw [← rootHash_eq] at heq
      have hsub := entries_subset_of_hash hinj huwf hwf.2.1
        (List.Subset.trans hun (treeNodes_right_subset ..)) (treeNodes_left_subset ..) ha heq
      exact fork_disjoint hwf (hsub he) (hue he)
    · -- a node below with the hash of the fork: one side would have the entries of both
      intro h hal h' har heq
      rw [List.map_singleton, List.mem_singleton] at har
      subst har
      rw [← rootHash_eq] at heq
      rcases List.mem_append.mp hal with hal | hal
      · obtain ⟨a, ha, rfl⟩ := List.mem_map.mp hal
        have hsub := entries_subset_of_hash hinj hwf hwf.2.1 (fun _ h => h)
          (treeNodes_left_subset ..) ha heq
        exact fork_disjoint hwf (hsub (List.mem_append_right _ her)) her
      · obtain ⟨a, ha, rfl⟩ := List.mem_map.mp hal
        have hsub := entries_subset_of_hash hinj hwf hwf.2.2 (fun _ h => h)
          (treeNodes_right_subset ..) ha heq
        exact fork_disjoint hwf hel (hsub (List.mem_append_left _ hel))

section

variable {s start count : Nat} {sample : Hash} {left right : Tree}
  (hwf : TreeWF s (.fork start count sample left right))
  (hinj : NoCollision digest (treeNodes digest (.fork start count sample left right)))
include hwf hinj

theorem child_hash_ne {node : Node} (h : node ∈ treeNodes digest left ++ treeNodes digest right) :
    nodeHash digest node ≠ rootHash digest (.fork start count sample left right) := by
  have hnodup := hashes_nodup hwf hinj
  rw [treeNodes, List.map_append, List.nodup_append] at hnodup
  rw [rootHash_eq]
  exact hnodup.2.2 _ (List.mem_map_of_mem h) _ (by simp)

/-- No node of the left side has the hash of a node of the right side. -/
theorem side_hash_ne {a b : Node} (ha : a ∈ treeNodes digest left)
    (hb : b ∈ treeNodes digest right) :
    nodeHash digest a ≠ nodeHash digest b := by
  have hnodup := hashes_nodup hwf hinj
  rw [treeNodes, List.map_append, List.map_append, List.nodup_append, List.nodup_append] at hnodup
  exact hnodup.1.2.2 _ (List.mem_map_of_mem ha) _ (List.mem_map_of_mem hb)

theorem child_not_visited {visited : HashSet}
    (hvisited : ∀ node ∈ treeNodes digest (.fork start count sample left right),
      nodeHash digest node ∉ visited)
    {node : Node} (h : node ∈ treeNodes digest left ++ treeNodes digest right) :
    nodeHash digest node ∉
      visited.insert (rootHash digest (.fork start count sample left right)) := by
  rw [Std.ExtTreeSet.mem_insert, Std.compare_eq_iff_eq, not_or]
  exact ⟨fun heq => child_hash_ne hwf hinj h heq.symm,
    hvisited node (List.mem_append_left _ h)⟩

end

/-! ## Reading the leaves -/

/-- The reader has every node of the tree. -/
def Holds (digest : Digest) (reader : NodeReader) (t : Tree) : Prop :=
  ∀ node ∈ treeNodes digest t, reader (nodeHash digest node) = .ok (some node.bytes)

variable {reader : NodeReader}

theorem Holds.left {start count : Nat} {left right : Tree}
    (h : Holds digest reader (.fork start count sample left right)) : Holds digest reader left :=
  fun node hn => h node (treeNodes_left_subset _ _ _ _ _ hn)

theorem Holds.right {start count : Nat} {left right : Tree}
    (h : Holds digest reader (.fork start count sample left right)) : Holds digest reader right :=
  fun node hn => h node (treeNodes_right_subset _ _ _ _ _ hn)

theorem fetchNode_rootHash (hwf : TreeWF s t) (h : Holds digest reader t) :
    fetchNode digest reader (rootHash digest t) = .ok (rootNode digest t) := by
  obtain ⟨henc, hvalid⟩ := rootNode_ok digest hwf
  rw [rootHash_eq, fetchNode, h _ (rootNode_mem digest t), ok_bind]
  simp only [okOr, ok_bind]
  rw [Node.decode_bytes henc hvalid, ok_bind, hashNode_eq digest henc, ok_bind]
  simp

theorem mergeLeaves_eq {leaves : Leaves} {es : List (Hash × Hash)} (h : (es.map Prod.fst).Nodup)
    (hnew : ∀ e ∈ es, e.1 ∉ leaves) : mergeLeaves leaves es = .ok (insertEach leaves es) := by
  induction es generalizing leaves with
  | nil => rfl
  | cons e es ih =>
    obtain ⟨key, value⟩ := e
    rw [List.map_cons, List.nodup_cons] at h
    obtain ⟨hkey, hrest⟩ := List.forall_mem_cons.mp hnew
    rw [mergeLeaves, if_neg hkey, insertEach_cons]
    refine ih h.2 fun e he hmem => ?_
    rcases Std.ExtTreeMap.mem_insert.mp hmem with heq | hmem
    · rw [Std.compare_eq_iff_eq] at heq
      exact h.1 (List.mem_map.mpr ⟨e, he, heq.symm⟩)
    · exact hrest e he hmem

theorem mem_keys_insertEach {es : List (Hash × Hash)} (h : (es.map Prod.fst).Nodup) {key : Hash}
    (hk : key ∈ (insertEach (∅ : Leaves) es).keys) : ∃ value, (key, value) ∈ es := by
  rw [← Std.ExtTreeMap.map_fst_toList_eq_keys] at hk
  obtain ⟨e, he, rfl⟩ := List.mem_map.mp hk
  exact ⟨e.2, (mem_toList_insertEach h e).mp he⟩

/-- The placement check of `collect_leaves` finds every leaf of a well-formed fork in place. -/
theorem fork_leaves_placed {start count : Nat} {left right : Tree}
    (hwf : TreeWF start (.fork start count sample left right)) :
    (((insertEach (∅ : Leaves) left.entries).keys.any fun key =>
        !prefixMatches key start count (clamp sample start count) || bitAt key (start + count)) ||
      ((insertEach (∅ : Leaves) right.entries).keys.any fun key =>
        !prefixMatches key start count (clamp sample start count) ||
          !bitAt key (start + count))) = false := by
  have hlt := hwf.1.branch_lt
  have hmatch (key value : Hash) (h : (key, value) ∈ left.entries ++ right.entries) :
      prefixMatches key start count (clamp sample start count) = true :=
    (prefixMatches_clamp (by omega)).mpr (hwf.1.agree _ h)
  rw [Bool.or_eq_false_iff]
  refine ⟨List.any_eq_false.mpr fun key hkey => ?_, List.any_eq_false.mpr fun key hkey => ?_⟩
  · obtain ⟨value, hmem⟩ := mem_keys_insertEach hwf.2.1.nodup_keys hkey
    simp [hmatch key value (List.mem_append_left _ hmem), hwf.1.left_bit _ hmem]
  · obtain ⟨value, hmem⟩ := mem_keys_insertEach hwf.2.2.nodup_keys hkey
    simp [hmatch key value (List.mem_append_right _ hmem), hwf.1.right_bit _ hmem]

/-- The leaves of a held tree are read back, and exactly its hashes are visited. -/
theorem collectLeaves_eq (levels start : Nat) (t : Tree) (visited : HashSet)
    (hlevels : 257 ≤ levels + start) (hstart : start ≤ 256) (hwf : TreeWF start t)
    (hholds : Holds digest reader t) (hinj : NoCollision digest (treeNodes digest t))
    (hvisited : ∀ node ∈ treeNodes digest t, nodeHash digest node ∉ visited) :
    ∃ visited', collectLeaves digest reader levels (rootHash digest t) start visited ∅ =
        .ok (visited', insertEach ∅ t.entries) ∧
      ∀ h, h ∈ visited' ↔ h ∈ visited ∨ h ∈ (treeNodes digest t).map (nodeHash digest) := by
  induction t generalizing levels start visited with
  | leaf key value =>
    obtain ⟨levels, rfl⟩ : ∃ n, levels = n + 1 := ⟨levels - 1, by omega⟩
    have hfresh := hvisited _ (rootNode_mem digest _)
    rw [← rootHash_eq] at hfresh
    refine ⟨visited.insert (rootHash digest (.leaf key value)), ?_, fun h => ?_⟩
    · rw [collectLeaves, if_neg hfresh, fetchNode_rootHash hwf hholds, ok_bind]
      simp only [rootNode]
      rw [mergeLeaves_eq (by simp) (by simp)]
      rfl
    · rw [Std.ExtTreeSet.mem_insert, Std.compare_eq_iff_eq]
      simp [treeNodes, rootHash, or_comm, eq_comm]
  | fork s count sample left right ihl ihr =>
    obtain ⟨levels, rfl⟩ : ∃ n, levels = n + 1 := ⟨levels - 1, by omega⟩
    obtain rfl : s = start := hwf.1.start_eq
    have hlt := hwf.1.branch_lt
    have hs : (UInt64.ofNat s).toNat = s := toNat_ofNat64 (by omega)
    have hc : (UInt64.ofNat count).toNat = count := toNat_ofNat64 (by omega)
    have hfresh := hvisited _ (rootNode_mem digest _)
    rw [← rootHash_eq] at hfresh
    have hbelow {node : Node} :=
      @child_not_visited digest _ _ _ _ _ _ hwf hinj visited hvisited node
    obtain ⟨vl, hleft, hvl⟩ := ihl levels (s + count + 1)
      (visited.insert (rootHash digest (.fork s count sample left right))) (by omega) (by omega)
      hwf.2.1 hholds.left (hinj.mono (treeNodes_left_subset ..))
      (fun node hn => hbelow (List.mem_append_left _ hn))
    obtain ⟨vr, hright, hvr⟩ := ihr levels (s + count + 1) vl (by omega) (by omega)
      hwf.2.2 hholds.right (hinj.mono (treeNodes_right_subset ..)) (by
        intro node hn hmem
        rcases (hvl _).mp hmem with hmem | hmem
        · exact hbelow (List.mem_append_right _ hn) hmem
        · obtain ⟨other, ho, heq⟩ := List.mem_map.mp hmem
          exact side_hash_ne hwf hinj ho hn heq)
    obtain ⟨hkeys, hmerge⟩ := insertEach_toList_append hwf.nodup_keys
    refine ⟨vr, ?_, fun h => ?_⟩
    · rw [collectLeaves, if_neg hfresh, fetchNode_rootHash hwf hholds, ok_bind]
      simp only [rootNode, hs, hc]
      rw [if_neg (by simp), checkedAdd_eq_some (by omega)]
      simp only [Option.filter_some, decide_eq_true hlt, if_true, okOr, ok_bind]
      rw [hleft, ok_bind]
      simp only
      rw [hright, ok_bind]
      simp only
      rw [if_neg (by rw [fork_leaves_placed hwf]; simp), mergeLeaves_eq hkeys (by simp), ok_bind,
        hmerge]
      rfl
    · rw [hvr, hvl, Std.ExtTreeSet.mem_insert, Std.compare_eq_iff_eq, rootHash_eq, treeNodes]
      simp only [List.map_append, List.mem_append, List.map_singleton, List.mem_singleton]
      grind

theorem readLeaves_eq {t : Tree} (hwf : TreeWF 0 t) (hholds : Holds digest reader t)
    (hinj : NoCollision digest (treeNodes digest t)) (hne : rootHash digest t ≠ emptyRoot) :
    readLeaves digest reader (rootHash digest t) = .ok (insertEach ∅ t.entries) := by
  obtain ⟨visited, hread, -⟩ := collectLeaves_eq 257 0 t ∅ (by omega) (by omega) hwf hholds hinj
    (by simp)
  rw [readLeaves, if_pos hne, hread]
  rfl

end Foks.MerkleStore
