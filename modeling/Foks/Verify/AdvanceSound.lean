/-
  Soundness of the advance: what it authenticates is honest.

  The latest root is honest. Its pointers are read from the map and hash to what the honest root
  commits to, so the map is honest at each of them; the next epoch of the path is one of them, so
  its root is honest too, and so on down to the pin. Every hash that entered the map belongs to
  the latest root, to the pin's own set, or to a pointer of the path.
-/
import Foks.Verify.AdvanceComplete

namespace Foks.Verify

open Foks.Lib Foks.Snowpack Foks.Crypto
open Foks.Proto (HostchainTail MerkleRoot HistoricalMerkleRoots)
open Foks.MerkleStore (backPointersValue)

/-! ## Walking the path -/

/-- An epoch of the path whose pointers, read from the map, hash to what its root commits to. -/
structure EpochChecked (digest : Digest) (roots : RootMap) (hashes : RootHashes) (epoch : UInt64)
    (root : MerkleRoot) (ps : List (UInt64 × Hash)) : Prop where
  root_eq : roots[epoch]? = some root
  targets_eq : ps.map Prod.fst = merkleBackpointerSequence epoch
  known : ∀ p ∈ ps, hashes[p.1]? = some p.2
  codable : Codable (backPointersValue ps)
  hash_eq : pointersHash digest ps = root.backPointers

variable {digest : Digest} {hashes : RootHashes} {pinned : VerifiedMerkleRoot} {latest : MerkleRoot}
  {latestBytes historicalBytes : List UInt8} {roots : RootMap}

theorem checkPath_sound {path : List UInt64} {prior out : Option (List (UInt64 × Hash))}
    (h : checkPath digest roots hashes path prior = .ok out) :
    (∀ e ∈ path, ∃ root ps, EpochChecked digest roots hashes e root ps) ∧
      ∀ ps, out = some ps → prior = some ps ∨ ∀ p ∈ ps, hashes[p.1]? = some p.2 := by
  induction path generalizing prior with
  | nil =>
    cases h
    exact ⟨by simp, fun ps hps => .inl hps⟩
  | cons e path ih =>
    obtain ⟨root, hroot, h⟩ := bind_eq_ok.mp h
    obtain ⟨_, -, h⟩ := bind_eq_ok.mp h
    obtain ⟨ps, hps, h⟩ := bind_eq_ok.mp h
    obtain ⟨hash, hhash, h⟩ := bind_eq_ok.mp h
    obtain ⟨hfst, hknown⟩ := pointersOf_eq_ok.mp hps
    obtain ⟨hcod, -, rfl⟩ := hashBackPointers_eq_ok.mp hhash
    obtain ⟨heq, hrest⟩ := ite_error_eq_ok.mp h
    obtain ⟨hall, hout⟩ := ih hrest
    refine ⟨List.forall_mem_cons.mpr ⟨⟨root, ps, okOr_eq_ok.mp hroot, hfst, hknown, hcod,
      not_not.mp heq⟩, hall⟩, fun qs hqs => .inr ?_⟩
    rcases hout qs hqs with hprior | hknown'
    · cases hprior
      exact hknown
    · exact hknown'

/-! ## The collected map -/

/-- What is in the two maps once they are filled. -/
structure Collected (digest : Digest) (pinned : VerifiedMerkleRoot) (latest : MerkleRoot)
    (latestHash : Hash) (rest : List UInt64) (historical : HistoricalMerkleRoots) (roots : RootMap)
    (hashes : RootHashes) : Prop where
  latest_root : roots[latest.epoch]? = some latest
  latest_hash : hashes[latest.epoch]? = some latestHash
  rest_root : ∀ e ∈ rest, ∃ root ∈ historical.roots, Hashable root ∧ roots[e]? = some root ∧
    hashes[e]? = some (rootHash digest root)
  source : ∀ k v, hashes[k]? = some v → k = latest.epoch ∨ k ∈ rest ∨
    k ∈ SkipPath.hashEpochs latest.epoch pinned.epoch rest ∨
    pinned.authenticatedRootSet[k]? = some v

variable {rest : List UInt64} {pinnedRoot : MerkleRoot} {historical : HistoricalMerkleRoots}
  {latestHash : Hash}

theorem collectHistory_sound (hpath : SkipPath latest.epoch pinned.epoch rest)
    (hlen : historical.roots.length = rest.length)
    (h : collectHistory digest pinned pinnedRoot latest latestHash
      ⟨rest, SkipPath.hashEpochs latest.epoch pinned.epoch rest⟩ historical = .ok (roots, hashes)) :
    Collected digest pinned latest latestHash rest historical roots hashes := by
  obtain ⟨-, h⟩ := ite_error_eq_ok.mp h
  obtain ⟨⟨roots', hashes'⟩, hroots, h⟩ := bind_eq_ok.mp h
  obtain ⟨hashes'', hhashes, h⟩ := bind_eq_ok.mp h
  cases h
  obtain ⟨hall, rfl, rfl⟩ := insertRoots_eq_ok.mp hroots
  have hnodup := hpath.nodup
  rw [List.nodup_cons] at hnodup
  have hkeys : (rest.zip historical.roots).map Prod.fst = rest :=
    List.map_fst_zip (by omega)
  have hkeys' : ((rest.zip historical.roots).map fun p => (p.1, rootHash digest p.2)).map
      Prod.fst = rest := by
    rw [List.map_map]
    exact hkeys
  -- the epochs of the response are distinct, and none is the latest one
  have hlookup (m : RootMap) := @getElem?_insertEach _ _ _ _ _ m (rest.zip historical.roots)
    (by rw [hkeys]; exact hnodup.2)
  have hlookup' (m : RootHashes) := @getElem?_insertEach _ _ _ _ _ m
    ((rest.zip historical.roots).map fun p => (p.1, rootHash digest p.2))
    (by rw [hkeys']; exact hnodup.2)
  refine ⟨?_, ?_, ?_, ?_⟩
  · refine (hlookup _ _ _).mpr (.inr ⟨by rw [hkeys]; exact hnodup.1, ?_⟩)
    rw [insertEach_cons, insertEach_cons, insertEach_nil, getElem?_insert_self_or, if_pos rfl]
  · refine insertChecked_keep hhashes ((hlookup' _ _ _).mpr (.inr ⟨by
      rw [hkeys']; exact hnodup.1, ?_⟩))
    rw [getElem?_insert_self_or, if_pos rfl]
  · intro e he
    rw [← hkeys] at he
    obtain ⟨⟨e', root⟩, hmem, rfl⟩ := List.mem_map.mp he
    refine ⟨root, (List.of_mem_zip hmem).2, (hall _ hmem).2, (hlookup _ _ _).mpr (.inl hmem),
      insertChecked_keep hhashes ((hlookup' _ _ _).mpr (.inl ?_))⟩
    exact List.mem_map.mpr ⟨_, hmem, rfl⟩
  · intro k v hk
    rcases insertChecked_cases hhashes hk with hmem | hk
    · exact .inr (.inr (.inl (List.of_mem_zip hmem).1))
    · rcases getElem?_insertEach_cases hk with hmem | hk
      · obtain ⟨p, hp, heq⟩ := List.mem_map.mp hmem
        cases heq
        exact .inr (.inl (List.of_mem_zip hp).1)
      · rw [getElem?_insert_self_or] at hk
        split at hk
        · exact .inl (by rename_i heq; exact heq.symm)
        · exact .inr (.inr (.inr hk))

/-! ## Strings the verifier hashes -/

/-- The pointers of an epoch that the map knows. -/
def knownPointers (hashes : RootHashes) (epoch : UInt64) : List (UInt64 × Hash) :=
  (merkleBackpointerSequence epoch).filterMap fun t => hashes[t]?.map (fun h => (t, h))

theorem knownPointers_eq {epoch : UInt64} {ps : List (UInt64 × Hash)}
    (hfst : ps.map Prod.fst = merkleBackpointerSequence epoch)
    (hknown : ∀ p ∈ ps, hashes[p.1]? = some p.2) : knownPointers hashes epoch = ps := by
  rw [knownPointers, ← hfst]
  clear hfst
  induction ps with
  | nil => rfl
  | cons p ps ih =>
    obtain ⟨hp, hps⟩ := List.forall_mem_cons.mp hknown
    rw [List.map_cons, List.filterMap_cons, hp, ih hps]
    rfl

/-- The strings hashed while a later root is connected: the roots, and the pointers of each epoch
    on the path. -/
def connectInputs (latest pinned : UInt64) (roots : List MerkleRoot) (hashes : RootHashes) :
    List (List UInt8) :=
  roots.map rootInput ++
    (merkleCollectRoots latest pinned).1.map (fun e => pointersInput (knownPointers hashes e))

/-- The strings that `verifyMerkleAdvance` hashes on these arguments. -/
def advanceInputs (digest : Digest) (pinned : VerifiedMerkleRoot)
    (latestBytes historicalBytes : List UInt8) : List (List UInt8) :=
  let run : Except Error (List (List UInt8)) := do
    let pinnedRoot ← protocol (MerkleRoot.decode pinned.rootBytes)
    let latest ← protocol (MerkleRoot.decode latestBytes)
    let latestHash ← hashRoot digest latest
    let history ← merkleHistoryRequirements latest.epoch pinned.epoch
    let historical ← protocol (HistoricalMerkleRoots.decode historicalBytes)
    let (_, hashes) ←
      collectHistory digest pinned pinnedRoot latest latestHash history historical
    .ok (connectInputs latest.epoch pinned.epoch (pinnedRoot :: latest :: historical.roots) hashes)
  run.toOption.getD []

/-! ## Honesty passes down the path -/

section

variable {digest : Digest} {H : History digest} {pinned : VerifiedMerkleRoot} {latest : MerkleRoot}
  {rest : List UInt64} {historical : HistoricalMerkleRoots} {roots : RootMap} {hashes : RootHashes}
  {hashed : List MerkleRoot}

/-- Where the map is honest at an epoch of the path, it is honest at the pointers of that epoch. -/
theorem pointers_honest (hpath : SkipPath latest.epoch pinned.epoch rest)
    (hcol : Collected digest pinned latest (H.hash latest.epoch) rest historical roots hashes)
    (hlatest : latest = H.root latest.epoch) (hsub : historical.roots ⊆ hashed)
    (hfree : CollisionFree digest (H.inputs latest.epoch ++
      connectInputs latest.epoch pinned.epoch hashed hashes))
    {e : UInt64} (he : e ∈ latest.epoch :: rest)
    (hchecked : ∃ root ps, EpochChecked digest roots hashes e root ps)
    (hhonest : hashes[e]? = some (H.hash e)) :
    ∀ t ∈ merkleBackpointerSequence e, hashes[t]? = some (H.hash t) := by
  obtain ⟨root, ps, hroot, hfst, hknown, hcod, hhash⟩ := hchecked
  have hb := hpath.bounds he
  have hpos : 0 < e.toNat := by omega
  have hhonestRoot : root = H.root e := by
    rcases List.mem_cons.mp he with rfl | he
    · rw [hcol.latest_root] at hroot
      rw [← Option.some.inj hroot, ← hlatest]
    · obtain ⟨root', hmem, hhashable, hroot', hhash'⟩ := hcol.rest_root e he
      rw [hroot'] at hroot
      cases hroot
      rw [hhash'] at hhonest
      refine H.root_eq hfree hpos hb.2 hhashable ?_ (Option.some.inj hhonest)
      exact List.mem_append_left _ (List.mem_map_of_mem (hsub hmem))
  subst hhonestRoot
  have hps : ps = H.pointers e := by
    refine H.pointers_eq_of_hash hfree hpos hb.2 hcod (List.mem_append_right _ ?_) hhash
    rw [hpath.collectRoots_eq]
    exact List.mem_map.mpr ⟨e, he, by rw [knownPointers_eq hfst hknown]⟩
  intro t ht
  refine hknown (t, H.hash t) ?_
  rw [hps]
  exact List.mem_map.mpr ⟨t, ht, rfl⟩

/-- A checked path makes the whole map honest, apart from entries of the pin for other epochs. -/
theorem collected_honest (hpath : SkipPath latest.epoch pinned.epoch rest)
    (hcol : Collected digest pinned latest (H.hash latest.epoch) rest historical roots hashes)
    (hlatest : latest = H.root latest.epoch) (hsub : historical.roots ⊆ hashed)
    (hfree : CollisionFree digest (H.inputs latest.epoch ++
      connectInputs latest.epoch pinned.epoch hashed hashes))
    (hchecked : ∀ e ∈ latest.epoch :: rest, ∃ root ps, EpochChecked digest roots hashes e root ps) :
    hashes[pinned.epoch]? = some (H.hash pinned.epoch) ∧
      ∀ k v, hashes[k]? = some v →
        v = H.hash k ∨ (k ≠ pinned.epoch ∧ pinned.authenticatedRootSet[k]? = some v) := by
  have hstep : ∀ e ∈ latest.epoch :: rest, hashes[e]? = some (H.hash e) →
      ∀ t ∈ merkleBackpointerSequence e, hashes[t]? = some (H.hash t) :=
    fun e he => pointers_honest hpath hcol hlatest hsub hfree he (hchecked e he)
  have hall := forall_of_linked hpath.linked (P := fun e => hashes[e]? = some (H.hash e))
    (fun s hs => by cases hs; exact hcol.latest_hash) hstep
  have hmap (e : UInt64) (he : e ∈ latest.epoch :: rest) := hall e (List.mem_append_left _ he)
  have hpin := hall pinned.epoch (List.mem_append_right _ (List.mem_singleton_self _))
  have hagree {k : UInt64} {v : Hash} (hk : hashes[k]? = some v)
      (hh : hashes[k]? = some (H.hash k)) : v = H.hash k := by
    rw [hk] at hh
    exact Option.some.inj hh
  refine ⟨hpin, fun k v hk => ?_⟩
  by_cases hp : k = pinned.epoch
  · subst hp
    exact .inl (hagree hk hpin)
  · rcases hcol.source k v hk with rfl | hrest | hhash | hown
    · exact .inl (hagree hk (hmap _ List.mem_cons_self))
    · exact .inl (hagree hk (hmap _ (List.mem_cons_of_mem _ hrest)))
    · obtain ⟨-, s, hs, hks⟩ := SkipPath.mem_hashEpochs.mp hhash
      exact .inl (hagree hk (hstep s hs (hmap s hs) k hks))
    · exact .inr ⟨hp, hown⟩

end

/-- What the own set of a pin says of an epoch is one of its entries. -/
theorem authenticatedRootSet_cases {k : UInt64} {v : Hash}
    (h : pinned.authenticatedRootSet[k]? = some v) :
    ∃ entry ∈ pinned.authenticatedRoots, entry.epoch = k ∧ entry.rootHash = v := by
  rcases getElem?_insertEach_cases h with hmem | hk
  · obtain ⟨entry, hentry, heq⟩ := List.mem_map.mp hmem
    cases heq
    exact ⟨entry, hentry, rfl, rfl⟩
  · simp at hk

/-! ## The advance -/

variable {advance : VerifiedMerkleAdvance}

/-- What a successful connection has checked. -/
theorem connectLatest_eq_ok (hpath : SkipPath latest.epoch pinned.epoch rest)
    (h : connectLatest digest pinned pinnedRoot latest latestHash latestBytes historicalBytes =
      .ok advance) : ∃ historical roots,
      protocol (HistoricalMerkleRoots.decode historicalBytes) = .ok historical ∧
      historical.roots.length = rest.length ∧
      collectHistory digest pinned pinnedRoot latest latestHash
        ⟨rest, SkipPath.hashEpochs latest.epoch pinned.epoch rest⟩ historical =
          .ok (roots, advance.authenticatedRoots) ∧
      (∀ e ∈ latest.epoch :: rest, ∃ root ps,
        EpochChecked digest roots advance.authenticatedRoots e root ps) ∧
      advance.authenticatedRoots[pinned.epoch]? = some pinned.rootHash := by
  rw [connectLatest, hpath.requirements_eq, ok_bind] at h
  obtain ⟨historical, hhist, h⟩ := bind_eq_ok.mp h
  obtain ⟨hshape, h⟩ := ite_error_eq_ok.mp h
  obtain ⟨⟨roots, hashes⟩, hcollect, h⟩ := bind_eq_ok.mp h
  obtain ⟨prior, hprior, h⟩ := bind_eq_ok.mp h
  obtain ⟨final, hfinal, h⟩ := bind_eq_ok.mp h
  obtain ⟨hlast, h⟩ := ite_error_eq_ok.mp h
  obtain ⟨entries, -, h⟩ := bind_eq_ok.mp h
  cases h
  rw [hpath.collectRoots_eq] at hprior
  obtain ⟨hchecked, hknown⟩ := checkPath_sound hprior
  rw [not_or, not_not] at hshape
  refine ⟨historical, roots, hhist, hshape.1, hcollect, hchecked, ?_⟩
  rcases hknown final (okOr_eq_ok.mp hfinal) with hnone | hknown
  · cases hnone
  · obtain ⟨p, hp, hpin⟩ := List.any_eq_true.mp (not_not.mp hlast)
    obtain ⟨h1, h2⟩ := of_decide_eq_true hpin
    rw [← h1, ← h2]
    exact hknown p hp

/-- The strings hashed on a successful advance, with the values it computed. -/
theorem advanceInputs_eq (hpath : SkipPath latest.epoch pinned.epoch rest)
    (hpinned : protocol (MerkleRoot.decode pinned.rootBytes) = .ok pinnedRoot)
    (hlatest : protocol (MerkleRoot.decode latestBytes) = .ok latest)
    (hhash : hashRoot digest latest = .ok latestHash)
    (hhist : protocol (HistoricalMerkleRoots.decode historicalBytes) = .ok historical)
    (hcollect : collectHistory digest pinned pinnedRoot latest latestHash
      ⟨rest, SkipPath.hashEpochs latest.epoch pinned.epoch rest⟩ historical = .ok (roots, hashes)) :
    advanceInputs digest pinned latestBytes historicalBytes =
      connectInputs latest.epoch pinned.epoch
      (pinnedRoot :: latest :: historical.roots) hashes := by
  simp only [advanceInputs, hpinned, hlatest, hhash, hpath.requirements_eq, hhist, hcollect,
    ok_bind]
  rfl

/-- The advance, with a latest root of the history that is above the pin. -/
theorem advance_honest {H : History digest} {tail : HostchainTail}
    (hdecode : MerkleRoot.decode latestBytes = .ok latest) (hlatest : latest = H.root latest.epoch)
    (hnew : pinned.epoch.toNat < latest.epoch.toNat) (hfree : CollisionFree digest
      (H.inputs latest.epoch ++ advanceInputs digest pinned latestBytes historicalBytes))
    (hok : verifyMerkleAdvance digest pinned latestBytes historicalBytes tail = .ok advance) :
    MerkleRoot.decode pinned.rootBytes = .ok (H.root pinned.epoch) ∧
      pinned.rootHash = H.hash pinned.epoch ∧
      ∀ k v, advance.authenticatedRoots[k]? = some v →
        v = H.hash k ∨ (k ≠ pinned.epoch ∧ pinned.authenticatedRootSet[k]? = some v) := by
  obtain ⟨pinnedRoot, hpinned, hpinnedOk, hepoch, hhash, -, hlatestOk, hconnect⟩ :=
    (verifyMerkleAdvance_eq_ok_iff hdecode hnew).mp hok
  have hpos : 0 < pinned.epoch.toNat := by
    refine Nat.pos_of_ne_zero fun h0 => (MerkleRoot.decode_eq_ok.mp hpinned).1 ?_
    rw [hepoch]
    exact UInt64.toNat_inj.mp h0
  have hlatestHash : rootHash digest latest = H.hash latest.epoch := by rw [History.hash, ← hlatest]
  obtain ⟨rest, hpath⟩ := exists_skipPath hpos hnew
  obtain ⟨historical, roots, hhist, hlen, hcollect, hchecked, hpinHash⟩ :=
    connectLatest_eq_ok hpath hconnect
  rw [advanceInputs_eq hpath (protocol_eq_ok.mpr hpinned) (protocol_eq_ok.mpr hdecode)
    (hashRoot_eq_ok.mpr ⟨hlatestOk, rfl⟩) hhist hcollect] at hfree
  have hcol := collectHistory_sound hpath hlen hcollect
  rw [hlatestHash] at hcol
  obtain ⟨hhonest, hmap⟩ := collected_honest hpath hcol hlatest
    (List.subset_cons_of_subset _ (List.subset_cons_self ..)) hfree hchecked
  have hpinHonest : pinned.rootHash = H.hash pinned.epoch := by
    rw [hpinHash] at hhonest
    exact Option.some.inj hhonest
  have hroot : pinnedRoot = H.root pinned.epoch := by
    refine H.root_eq hfree hpos hnew.le hpinnedOk ?_ (by rw [hhash, hpinHonest])
    exact List.mem_append_left _ (List.mem_map_of_mem List.mem_cons_self)
  rw [← hroot]
  exact ⟨hpinned, hpinHonest, hmap⟩

/-- **Soundness of the advance.** The latest root is honest and above the pin, the pin's own set
    is honest at every other epoch, and the hash has no collision among the strings that occur.
    Then an accepted response shows that the pin is honest, and everything the advance
    authenticates is. -/
theorem verifyMerkleAdvance_sound {digest : Digest} (H : History digest)
    (pinned : VerifiedMerkleRoot) (latestBytes historicalBytes : List UInt8) (tail : HostchainTail)
    (latest : MerkleRoot) (advance : VerifiedMerkleAdvance)
    (hown : ∀ entry ∈ pinned.authenticatedRoots, entry.epoch ≠ pinned.epoch →
      entry.rootHash = H.hash entry.epoch)
    (hdecode : MerkleRoot.decode latestBytes = .ok latest) (hlatest : latest = H.root latest.epoch)
    (hnew : pinned.epoch < latest.epoch)
    (hfree : CollisionFree digest
      (H.inputs latest.epoch ++ advanceInputs digest pinned latestBytes historicalBytes))
    (hok : verifyMerkleAdvance digest pinned latestBytes historicalBytes tail = .ok advance) :
    MerkleRoot.decode pinned.rootBytes = .ok (H.root pinned.epoch) ∧
      pinned.rootHash = H.hash pinned.epoch ∧
      ∀ (epoch : UInt64) (hash : Hash), advance.authenticatedRoots[epoch]? = some hash →
        hash = H.hash epoch := by
  obtain ⟨hroot, hhash, hmap⟩ :=
    advance_honest hdecode hlatest (UInt64.lt_iff_toNat_lt.mp hnew) hfree hok
  refine ⟨hroot, hhash, fun epoch hash h => ?_⟩
  rcases hmap epoch hash h with hhonest | ⟨hne, hset⟩
  · exact hhonest
  · obtain ⟨entry, hentry, rfl, rfl⟩ := authenticatedRootSet_cases hset
    exact hown entry hentry hne

/-- On an honest answer the verifier hashes honest strings only. -/
theorem advanceInputs_honest {H : History digest} {latest : UInt64} (hpin : HonestPin H pinned)
    (hpath : SkipPath latest pinned.epoch rest)
    (hhist : HistoricalMerkleRoots.decode historicalBytes =
      .ok (H.answer ⟨rest, SkipPath.hashEpochs latest pinned.epoch rest⟩)) :
    advanceInputs digest pinned (H.root latest).bytes historicalBytes ⊆ H.inputs latest := by
  have hlt := hpath.lt
  have hpos : 0 < latest.toNat := by omega
  have hepoch := H.epoch_eq latest hpos
  have hpath' : SkipPath (H.root latest).epoch pinned.epoch rest := by rwa [hepoch]
  obtain ⟨roots, hashes, hcollect, hfilled⟩ := collectHistory_honest hpin hpath
  rw [advanceInputs_eq hpath'
    (protocol_eq_ok.mpr (by rw [hpin.bytes_eq]; exact H.decode_root hpin.pos))
    (protocol_eq_ok.mpr (H.decode_root hpos)) (hashRoot_eq_ok.mpr ⟨H.hashable _ hpos, rfl⟩)
    (protocol_eq_ok.mpr hhist) (by rw [hepoch]; exact hcollect), connectInputs, hepoch,
    hpath.collectRoots_eq]
  intro x hx
  rcases List.mem_append.mp hx with hx | hx
  · obtain ⟨root, hroot, rfl⟩ := List.mem_map.mp hx
    have hmem (e : UInt64) (he : 0 < e.toNat) (hle : e.toNat ≤ latest.toNat) :=
      (H.mem_inputs he hle).1
    rcases List.mem_cons.mp hroot with rfl | hroot
    · exact hmem _ hpin.pos hlt.le
    · rcases List.mem_cons.mp hroot with rfl | hroot
      · exact hmem _ hpos (le_refl _)
      · obtain ⟨e, he, rfl⟩ := List.mem_map.mp hroot
        have hb := hpath.bounds (List.mem_cons_of_mem _ he)
        exact hmem e (by omega) hb.2
  · obtain ⟨e, he, rfl⟩ := List.mem_map.mp hx
    have hb := hpath.bounds he
    have hps := pointersOf_eq_ok.mp (pointersOf_honest (hfilled.pointer_hash e he))
    rw [knownPointers_eq hps.1 hps.2]
    exact (H.mem_inputs (by omega) hb.2).2

set_option maxRecDepth 10000 in
theorem sampleHistory_free : CollisionFree Sha512.hash256 (sampleHistory.inputs 5) := by
  decide +kernel

/-- The sample history, from epoch 1 to epoch 5. -/
theorem verifyMerkleAdvance_sound_sample :
    ∃ advance, verifyMerkleAdvance Sha512.hash256 (samplePin 1) (sampleHistory.root 5).bytes
        (wire sampleAnswer.value) (sampleHistory.root 5).hostchain = .ok advance ∧
      ∀ (epoch : UInt64) (hash : Hash), advance.authenticatedRoots[epoch]? = some hash →
        hash = sampleHistory.hash epoch := by
  have hpin : HonestPin sampleHistory (samplePin 1) := samplePin_honest (by decide)
  obtain ⟨rest, hpath⟩ := @exists_skipPath 5 1 (by decide) (by decide)
  have hrequest : merkleHistoryRequirements 5 1 = .ok ⟨[4], [4, 3, 2]⟩ := by decide +kernel
  have hanswer : HistoricalMerkleRoots.decode (wire sampleAnswer.value) =
      .ok (sampleHistory.answer ⟨rest, SkipPath.hashEpochs 5 1 rest⟩) := by
    rw [Except.ok.inj (hpath.requirements_eq.symm.trans hrequest)]
    exact sampleAnswer_decode
  obtain ⟨advance, hok, -⟩ := advance_complete hpin hpath (by decide) hanswer
  have hfive : (sampleHistory.root 5).epoch = 5 := sampleHistory.epoch_eq 5 (by decide)
  have hsound := verifyMerkleAdvance_sound sampleHistory (samplePin 1) _ _ _
    (sampleHistory.root 5) advance (fun entry hentry _ => hpin.entries entry hentry)
    (sampleHistory.decode_root (by decide)) (by rw [hfive]) (by rw [hfive]; decide)
    (by rw [hfive]; exact sampleHistory_free.append (advanceInputs_honest hpin hpath hanswer)) hok
  exact ⟨advance, hok, hsound.2.2⟩

end Foks.Verify
