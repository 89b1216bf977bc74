/-
  Soundness of path verification against the tree of a map.

  The path is arbitrary. The nodes the verifier puts together on its way (`pathNodes`) can only
  hash to the root of a tree if they are nodes of that tree, unless two node encodings collide.
  So each edge stands for a fork that the queried key passes (`climb_sound`), and the terminal is
  the node where the key's own bits end up.
-/
import Foks.Merkle.History
import Foks.Verify.PathBits

namespace Foks.Verify

open Foks.Lib Foks.Snowpack Foks.Crypto Foks.Proto
open MerkleStore (Node Tree TreeWF NoCollision nodeHash rootHash rootNode treeNodes clamp)

/-! ## The nodes the verifier hashes -/

/-- The node of an edge, given the hash of the child on the path. -/
def Interior.node (i : Interior) (current : Hash) : Node :=
  .interior (UInt64.ofNat i.start) (UInt64.ofNat i.count) i.prefixBytes
    (if i.branch then i.sibling else current) (if i.branch then current else i.sibling)

theorem Interior.value_eq (i : Interior) (current : Hash) :
    i.value current = (i.node current).value := by
  unfold Interior.value Interior.node
  cases i.branch <;> rfl

/-- The node a terminal stands for. -/
def terminalNode (queryKey : Hash) : MerkleTerminal → Node
  | .leaf leaf foundKey => .leaf (foundKey.getD queryKey) leaf
  | .prefixMiss prefixBitStart prefixBitCount prefixBytes left right =>
    .interior prefixBitStart prefixBitCount prefixBytes left right

/-- The hash the climb arrives at. -/
def climbHash (digest : Digest) (current : Hash) : List Interior → Hash
  | [] => current
  | i :: interiors => nodeHash digest (i.node (climbHash digest current interiors))

/-- The nodes hashed on the climb, the terminal last. -/
def climbNodes (digest : Digest) (terminal : Node) : List Interior → List Node
  | [] => [terminal]
  | i :: interiors =>
    i.node (climbHash digest (nodeHash digest terminal) interiors) ::
      climbNodes digest terminal interiors

/-- All nodes hashed while a path is verified for a key. -/
def pathNodes (digest : Digest) (path : MerklePathCompressed) (queryKey : Hash) : List Node :=
  match walkEdges queryKey path.edges 0 with
  | .ok (interiors, _) => climbNodes digest (terminalNode queryKey path.terminal) interiors
  | .error _ => []

variable {digest : Digest} {interiors : List Interior} {queryKey : Hash} {expected : ExpectedLeaf}

theorem hashValue_eq_ok {node : Node} {h : Hash} :
    hashValue digest node.value = .ok h ↔ node.Encodable ∧ h = nodeHash digest node := by
  constructor
  · intro hok
    obtain ⟨bs, hbs, hok⟩ := bind_eq_ok.mp hok
    obtain ⟨he, rfl⟩ := Node.encodable_of_encoded (mapError_eq_ok.mpr (mapError_eq_ok.mp hbs))
    exact ⟨he, prefixedHashSignable_eq_ok (mapError_eq_ok.mp hok)⟩
  · rintro ⟨he, rfl⟩
    have hcod := Node.value_codable he
    rw [hashValue, encoded, hcod.encode_eq]
    show prefixedHash digest merkleNodeTypeId (wire node.value) = _
    rw [prefixedHash, prefixedHashSignable_wire digest _ hcod (Node.value_signable node)]
    rfl

theorem climb_cons (digest : Digest) (i : Interior) (interiors : List Interior) (current : Hash) :
    climb digest (i :: interiors) current =
      climb digest interiors current >>= fun h => hashValue digest (i.value h) := by
  simp [climb]

theorem climb_eq_ok {terminal : Node} {h : Hash} (hterm : terminal.Encodable)
    (hok : climb digest interiors (nodeHash digest terminal) = .ok h) :
    h = climbHash digest (nodeHash digest terminal) interiors ∧
      ∀ node ∈ climbNodes digest terminal interiors, node.Encodable := by
  induction interiors generalizing h with
  | nil =>
    cases hok
    exact ⟨rfl, by simpa [climbNodes] using hterm⟩
  | cons i interiors ih =>
    rw [climb_cons] at hok
    obtain ⟨h', hh', hok⟩ := bind_eq_ok.mp hok
    obtain ⟨rfl, hnodes⟩ := ih hh'
    rw [i.value_eq] at hok
    obtain ⟨henc, rfl⟩ := hashValue_eq_ok.mp hok
    exact ⟨rfl, List.forall_mem_cons.mpr ⟨henc, hnodes⟩⟩

variable {stop cursor : Nat}

/-- One edge: the verifier's interior node skips the key's own bits and branches on the next. -/
theorem walkEdges_cons {edge : Edge} {edges : List Edge}
    (h : walkEdges queryKey (edge :: edges) cursor = .ok (interiors, stop)) :
    ∃ rest, cursor + edge.count.toNat < 256 ∧
      interiors = ⟨cursor, edge.count.toNat, clamp queryKey cursor edge.count.toNat,
        MerkleStore.bitAt queryKey (cursor + edge.count.toNat), edge.sibling⟩ :: rest ∧
      walkEdges queryKey edges (cursor + edge.count.toNat + 1) = .ok (rest, stop) := by
  obtain ⟨prefixBytes, hclamp, h⟩ := bind_eq_ok.mp h
  obtain ⟨bit, hbit, h⟩ := bind_eq_ok.mp h
  obtain ⟨-, rfl⟩ := checkedAdd_eq_some_iff.mp (okOr_eq_ok.mp hbit)
  obtain ⟨branch, hbranch, h⟩ := bind_eq_ok.mp h
  obtain ⟨hlt, rfl⟩ := bitAt_eq_some.mp (okOr_eq_ok.mp hbranch)
  obtain ⟨⟨rest, stop'⟩, hrest, h⟩ := bind_eq_ok.mp h
  cases h
  rw [okOr_eq_ok, copyAndClamp_eq_some (by omega), Option.some.injEq] at hclamp
  refine ⟨rest, hlt, ?_, hrest⟩
  rw [← hclamp]
  congr 2
  omega

/-! ## Soundness -/

theorem ofNat_inj {a b : Nat} (ha : a < 2 ^ 64) (hb : b < 2 ^ 64)
    (h : UInt64.ofNat a = UInt64.ofNat b) : a = b := by
  have := congrArg UInt64.toNat h
  rwa [toNat_ofNat64 (by omega),
    toNat_ofNat64 (by omega)] at this

variable {t : Tree}

/-- A tree whose root node is the interior node of an edge of the walk is a fork that the key
    passes, and the climb continues with the child on the key's side. -/
theorem fork_of_interior {current sibling : Hash} {count : Nat} (hwf : TreeWF cursor t)
    (hlt : cursor + count < 256)
    (hnode : rootNode digest t = Interior.node ⟨cursor, count, clamp queryKey cursor count,
      MerkleStore.bitAt queryKey (cursor + count), sibling⟩ current) :
    ∃ child, TreeWF (cursor + count + 1) child ∧ rootHash digest child = current ∧
      (∀ node ∈ treeNodes digest child, node ∈ treeNodes digest t) ∧
      ∀ v, (queryKey, v) ∈ t.entries ↔ (queryKey, v) ∈ child.entries := by
  cases t with
  | leaf key value => cases hnode
  | fork s c sample left right =>
    obtain ⟨⟨rfl, hc, -, -, -⟩, hl, hr⟩ := id hwf
    simp only [rootNode, Interior.node, Node.interior.injEq] at hnode
    obtain ⟨-, hcount, hclamp, hleft, hright⟩ := hnode
    obtain rfl := ofNat_inj (by omega) (by omega) hcount
    have hagree := (MerkleStore.clamp_eq_iff (by omega)).mp hclamp
    refine ⟨if MerkleStore.bitAt queryKey (s + c) then right else left, ?_, ?_, ?_, fun v => ?_⟩
    · split <;> assumption
    · cases hb : MerkleStore.bitAt queryKey (s + c) with
      | true => simpa [hb] using hright
      | false => simpa [hb] using hleft
    · intro node hmem
      split at hmem <;> simp [treeNodes, hmem]
    · rw [hwf.mem_fork_iff]
      exact and_iff_right hagree

/-- A node of the climb with the hash of a tree is the root node of that tree. -/
theorem rootNode_eq_of_hash {start : Nat} {nodes : List Node} {node : Node} (hwf : TreeWF start t)
    (hinj : NoCollision digest (treeNodes digest t ++ nodes)) (hmem : node ∈ nodes)
    (henc : node.Encodable) (hh : nodeHash digest node = rootHash digest t) :
    rootNode digest t = node := by
  rw [MerkleStore.rootHash_eq] at hh
  exact hinj.eq (by simp [MerkleStore.rootNode_mem]) (by simp [hmem])
    (MerkleStore.rootNode_ok digest hwf).1 henc hh.symm

/-- The edges lead along the key's bits to the subtree whose root node is the terminal. -/
theorem climb_sound {terminal : Node} {edges : List Edge} (hwf : TreeWF cursor t)
    (hwalk : walkEdges queryKey edges cursor = .ok (interiors, stop))
    (henc : ∀ node ∈ climbNodes digest terminal interiors, node.Encodable)
    (hinj : NoCollision digest (treeNodes digest t ++ climbNodes digest terminal interiors))
    (hroot : climbHash digest (nodeHash digest terminal) interiors = rootHash digest t) :
    ∃ sub, TreeWF stop sub ∧ rootNode digest sub = terminal ∧
      ∀ v, (queryKey, v) ∈ t.entries ↔ (queryKey, v) ∈ sub.entries := by
  induction edges generalizing cursor interiors t with
  | nil =>
    cases hwalk
    have hterm : terminal ∈ climbNodes digest terminal [] := by simp [climbNodes]
    exact ⟨t, hwf, rootNode_eq_of_hash hwf hinj hterm (henc _ hterm) hroot, fun v => Iff.rfl⟩
  | cons edge edges ih =>
    obtain ⟨rest, hlt, rfl, hrest⟩ := walkEdges_cons hwalk
    obtain ⟨hhead, htail⟩ := List.forall_mem_cons.mp henc
    obtain ⟨child, hcwf, hchash, hsub, hmem⟩ := fork_of_interior hwf hlt
      (rootNode_eq_of_hash hwf hinj List.mem_cons_self hhead hroot)
    have hinj' : NoCollision digest
        (treeNodes digest child ++ climbNodes digest terminal rest) := by
      refine hinj.mono fun node hnode => ?_
      rcases List.mem_append.mp hnode with h | h
      · exact List.mem_append_left _ (hsub node h)
      · exact List.mem_append_right _ (List.mem_cons_of_mem _ h)
    obtain ⟨sub, hswf, hsroot, hsmem⟩ := ih hcwf hrest htail hinj' hchash.symm
    exact ⟨sub, hswf, hsroot, fun v => (hmem v).trans (hsmem v)⟩

/-! ## What an accepted path says -/

/-- What the caller expects of the queried key, said of the entries of a tree. -/
def ExpectedLeaf.TrueOf (queryKey : Hash) (entries : List (Hash × Hash)) : ExpectedLeaf → Prop
  | .exact leaf => (queryKey, leaf) ∈ entries
  | .present => ∃ leaf, (queryKey, leaf) ∈ entries
  | .absent => ∀ leaf, (queryKey, leaf) ∉ entries

theorem ExpectedLeaf.trueOf_congr {es fs : List (Hash × Hash)}
    (h : ∀ v, (queryKey, v) ∈ es ↔ (queryKey, v) ∈ fs) (expected : ExpectedLeaf) :
    expected.TrueOf queryKey es ↔ expected.TrueOf queryKey fs := by
  cases expected <;> simp [ExpectedLeaf.TrueOf, h]

/-- An accepted leaf terminal: the leaf is the queried key's, or another key's. -/
theorem leaf_terminal_sound {leaf : Hash} {foundKey : Option Hash} {v : Value}
    (h : terminalValue queryKey expected stop (.leaf leaf foundKey) = .ok v) :
    v = (terminalNode queryKey (.leaf leaf foundKey)).value ∧
      expected.TrueOf queryKey [(foundKey.getD queryKey, leaf)] := by
  obtain ⟨haccepts, h⟩ := ite_error_eq_ok.mp h
  obtain ⟨-, h⟩ := ite_error_eq_ok.mp h
  cases h
  refine ⟨rfl, ?_⟩
  rw [not_not] at haccepts
  cases expected with
  | absent =>
    cases foundKey with
    | none => cases haccepts
    | some found =>
      have hne : found ≠ queryKey := by simpa [ExpectedLeaf.accepts] using haccepts
      simp [ExpectedLeaf.TrueOf, hne.symm]
  | exact expected =>
    simp only [ExpectedLeaf.accepts, Bool.and_eq_true, Option.isNone_iff_eq_none,
      beq_iff_eq] at haccepts
    obtain ⟨rfl, rfl⟩ := haccepts
    simp [ExpectedLeaf.TrueOf]
  | present =>
    simp only [ExpectedLeaf.accepts, Option.isNone_iff_eq_none] at haccepts
    subst haccepts
    simp [ExpectedLeaf.TrueOf]

/-- An accepted prefix miss: nothing is expected, and the key does not have the prefix. -/
theorem prefixMiss_terminal_sound {left right : Hash} {start count : UInt64}
    {prefixBytes : List UInt8} {v : Value}
    (h : terminalValue queryKey expected stop (.prefixMiss start count prefixBytes left right) =
      .ok v) : v = (terminalNode queryKey (.prefixMiss start count prefixBytes left right)).value ∧
      expected = .absent ∧
      prefixMatches queryKey.bytes prefixBytes stop count.toNat = false := by
  obtain ⟨hguard, h⟩ := ite_error_eq_ok.mp h
  cases h
  simp only [not_or, ne_eq, not_not, Bool.not_eq_true] at hguard
  exact ⟨rfl, hguard.1, hguard.2.2⟩

/-- The terminal node is where the key's bits end, so what is expected of it is true. -/
theorem terminal_sound {terminal : MerkleTerminal} {v : Value} {sub : Tree}
    (h : terminalValue queryKey expected stop terminal = .ok v) (hwf : TreeWF stop sub)
    (hroot : rootNode digest sub = terminalNode queryKey terminal) :
    expected.TrueOf queryKey sub.entries := by
  cases terminal with
  | leaf leaf foundKey =>
    cases sub with
    | leaf key value =>
      obtain ⟨rfl, rfl⟩ := hroot
      exact (leaf_terminal_sound h).2
    | fork => cases hroot
  | prefixMiss start count prefixBytes left right =>
    obtain ⟨-, rfl, hmiss⟩ := prefixMiss_terminal_sound h
    intro leaf hmem
    cases sub with
    | leaf => cases hroot
    | fork s c sample l r =>
      obtain rfl : s = stop := hwf.1.start_eq
      have hlt := hwf.1.branch_lt
      obtain ⟨-, rfl, rfl, -, -⟩ := hroot
      rw [toNat_ofNat64 (by omega)] at hmiss
      have hagree := ((hwf.mem_fork_iff queryKey leaf).mp hmem).1
      rw [(prefixMatches_clamp_iff (by omega)).mpr hagree] at hmiss
      cases hmiss

/-- What an accepted path comes down to: the terminal is as expected, and its node climbs to the
    root. -/
theorem verifyMerklePathWith_eq_ok {path : MerklePathCompressed} {root : Hash}
    (h : verifyMerklePathWith digest path queryKey expected root = .ok ()) :
    ∃ interiors stop v, walkEdges queryKey path.edges 0 = .ok (interiors, stop) ∧
      terminalValue queryKey expected stop path.terminal = .ok v ∧
      (∀ node ∈ climbNodes digest (terminalNode queryKey path.terminal) interiors,
        node.Encodable) ∧
      climbHash digest (nodeHash digest (terminalNode queryKey path.terminal)) interiors =
      root := by
  obtain ⟨⟨interiors, stop⟩, hwalk, h⟩ := bind_eq_ok.mp h
  obtain ⟨v, hterminal, h⟩ := bind_eq_ok.mp h
  obtain ⟨current, hcurrent, h⟩ := bind_eq_ok.mp h
  obtain ⟨top, hclimb, h⟩ := bind_eq_ok.mp h
  obtain rfl : top = root := by
    split at h
    · assumption
    · cases h
  -- the climb starts at the terminal's node, whatever the terminal
  have hv : v = (terminalNode queryKey path.terminal).value := by
    cases hp : path.terminal with
    | leaf leaf foundKey => exact (leaf_terminal_sound (hp ▸ hterminal)).1
    | prefixMiss => exact (prefixMiss_terminal_sound (hp ▸ hterminal)).1
  subst hv
  obtain ⟨henc, rfl⟩ := hashValue_eq_ok.mp hcurrent
  obtain ⟨hroot, hnodes⟩ := climb_eq_ok henc hclimb
  exact ⟨interiors, stop, _, hwalk, hterminal, hnodes, hroot.symm⟩

/-- Whatever path the verifier accepts for a tree's root, what it was asked is true of the tree,
    unless two nodes it compared collide. -/
theorem verifyMerklePathWith_sound {path : MerklePathCompressed} (hwf : TreeWF 0 t)
    (hinj : NoCollision digest (treeNodes digest t ++ pathNodes digest path queryKey))
    (h : verifyMerklePathWith digest path queryKey expected (rootHash digest t) = .ok ()) :
    expected.TrueOf queryKey t.entries := by
  obtain ⟨interiors, stop, v, hwalk, hterminal, hnodes, hroot⟩ := verifyMerklePathWith_eq_ok h
  rw [pathNodes, hwalk] at hinj
  obtain ⟨sub, hsub, hsroot, hmem⟩ := climb_sound hwf hwalk hnodes hinj hroot
  exact (ExpectedLeaf.trueOf_congr hmem expected).mpr (terminal_sound hterminal hsub hsroot)

/-! ## Soundness for the tree of a map -/

section

open MerkleStore

/-- The changes that set every leaf of a map. -/
def setAll (leaves : Leaves) : List LeafChange := leaves.toList.map fun e => .set e.1 e.2

theorem overrideWith_setAll (leaves : Leaves) : overrideWith ∅ (setAll leaves) = leaves := by
  have h : overrideWith ∅ (setAll leaves) = insertEach ∅ leaves.toList := by
    rw [overrideWith, setAll, List.foldl_map]
    rfl
  rw [h, insertEach_toList]

/-- A map prepared on an empty store: the commit has the root of its tree. -/
theorem prepare_setAll (digest : Digest) {leaves : Leaves} (hne : leaves ≠ ∅)
    (ht : treeOf leaves = .ok t) :
    ∃ commit, prepare digest MemoryStore.empty.getNode emptyRoot (setAll leaves) = .ok commit ∧
      commit.root = rootHash digest t := by
  have happly : applyChanges ∅ ∅ (setAll leaves) = .ok leaves := by
    refine applyChanges_eq_ok_iff.mpr ⟨?_, by simp, (overrideWith_setAll leaves).symm⟩
    rw [setAll, List.map_map]
    exact nodup_keys_toList leaves
  have hempty : ¬ leaves.isEmpty = true := fun h => hne (Std.ExtTreeMap.isEmpty_iff.mp h)
  rw [prepare, readLeaves, if_neg (by simp), ok_bind, happly, ok_bind, if_neg hempty]
  simp only
  rw [build_treeOf digest ht, ok_bind]
  rw [newNodes_eq (fun _ _ => .inl (by simp [MemoryStore.empty])), ok_bind]
  exact ⟨_, rfl, rfl⟩

/-- **Path soundness.** For the root that the store computes for a non-empty map, no path whatsoever
    makes the verifier accept a wrong leaf, a missing key as present or a present key as absent,
    unless two different node encodings among those of the tree and of the path have the same
    hash. -/
theorem verifyMerklePath_sound (digest : Digest) (leaves : Leaves) (hne : leaves ≠ ∅) :
    ∃ tree commit, treeOf leaves = .ok tree ∧
      prepare digest MemoryStore.empty.getNode emptyRoot (setAll leaves) = .ok commit ∧
      build digest leaves.toList.length leaves.toList 0 ∅ =
        .ok (commit.root, insertEach ∅ (storedNodes digest tree)) ∧
      ∀ (path : MerklePathCompressed) (k : Hash),
        NoCollision digest (treeNodes digest tree ++ pathNodes digest path k) →
        (∀ v, verifyMerklePath digest path k (some v) commit.root = .ok () →
          leaves[k]? = some v) ∧
        (verifyMerklePathPresent digest path k commit.root = .ok () → k ∈ leaves) ∧
        (verifyMerklePath digest path k none commit.root = .ok () → k ∉ leaves) := by
  obtain ⟨t, ht, hwf, hents⟩ := treeOf_spec hne
  obtain ⟨commit, hprep, hroot⟩ := prepare_setAll digest hne ht
  refine ⟨t, commit, ht, hprep, ?_, fun path k hinj => ?_⟩
  · rw [hroot]
    exact build_treeOf digest ht
  have hmem (v : Hash) := mem_entries_iff hents k v
  rw [hroot]
  refine ⟨fun v h => ?_, fun h => ?_, fun h hk => ?_⟩
  · exact (hmem v).mp (verifyMerklePathWith_sound hwf hinj h)
  · obtain ⟨v, hv⟩ := verifyMerklePathWith_sound hwf hinj h
    exact Std.ExtTreeMap.mem_iff_isSome_getElem?.mpr (by simp [(hmem v).mp hv])
  · obtain ⟨v, hv⟩ := Option.isSome_iff_exists.mp (Std.ExtTreeMap.mem_iff_isSome_getElem?.mp hk)
    exact verifyMerklePathWith_sound hwf hinj h v ((hmem v).mpr hv)

/-- The tree of the two leaves of `twoBatches`. -/
def twoLeafTree : Tree :=
  .fork 0 0 (.replicate 32 0) (.leaf (.replicate 32 0) (.replicate 32 1))
    (.leaf (.replicate 32 0xff) (.replicate 32 2))

/-- A path for the key below the zero bit. -/
def zeroKeyPath : MerklePathCompressed :=
  ⟨[.make 0 (nodeHash Sha512.hash256 (.leaf (.replicate 32 0xff) (.replicate 32 2)))],
    .leaf (.replicate 32 1) none⟩

set_option maxRecDepth 10000 in
/-- Under SHA-512/256 the path is accepted for its leaf, and the leaf is the map's. -/
theorem verifyMerklePath_sound_zeroKey :
    mapAfter twoBatches ≠ ∅ ∧
    ∃ commit, prepare Sha512.hash256 MemoryStore.empty.getNode emptyRoot
        (setAll (mapAfter twoBatches)) = .ok commit ∧
      verifyMerklePath Sha512.hash256 zeroKeyPath (.replicate 32 0) (some (.replicate 32 1))
        commit.root = .ok () ∧
      (mapAfter twoBatches)[(FixedBytes.replicate 32 0 : Hash)]? = some (.replicate 32 1) := by
  have hne : mapAfter twoBatches ≠ ∅ := fun h => absurd (congrArg (·.isEmpty) h) (by decide)
  obtain ⟨tree, commit, htree, hprep, hbuild, hsound⟩ :=
    verifyMerklePath_sound Sha512.hash256 (mapAfter twoBatches) hne
  have htwo : treeOf (mapAfter twoBatches) = .ok twoLeafTree := by rfl
  cases htree
  have hroot : commit.root = rootHash Sha512.hash256 twoLeafTree := by
    exact (Prod.mk.inj (Except.ok.inj hbuild)).1.symm
  have haccept : verifyMerklePath Sha512.hash256 zeroKeyPath (.replicate 32 0)
      (some (.replicate 32 1)) (rootHash Sha512.hash256 twoLeafTree) = .ok () := by decide +kernel
  rw [← hroot] at haccept
  have hinj : NoCollision Sha512.hash256 (treeNodes Sha512.hash256 twoLeafTree ++
      pathNodes Sha512.hash256 zeroKeyPath (.replicate 32 0)) := by decide +kernel
  exact ⟨hne, commit, hprep, haccept, (hsound _ _ hinj).1 _ haccept⟩

end

end Foks.Verify
