/-
  Authenticating earlier roots from a trusted latest one (`foks-verify`, `merkle.rs`).

  Every target epoch is given its root, untrusted, and the part of the response that its own
  skip path needs; the target is authenticated by an advance from that root to the latest one.
  A target root is not trusted before, so soundness rests on the backward direction of the
  advance: an accepted path makes its own start honest.
-/
import Foks.Verify.AdvanceSound

namespace Foks.Verify

open Foks.Lib Foks.Snowpack Foks.Crypto
open Foks.Proto (MerkleRoot HistoricalMerkleRoots merkleRootTypeId)

/-! ## The function -/

/-- The full roots of the response by their epochs. -/
def indexRoots : List (UInt64 × MerkleRoot) → RootMap → Except Error RootMap
  | [], full => .ok full
  | (epoch, root) :: rest, full =>
    if root.epoch ≠ epoch ∨ full.contains epoch then .error .merkleHistoryShape
    else indexRoots rest (full.insert epoch root)

section

variable (digest : Digest) (latest : VerifiedMerkleAdvance)

/-- The untrusted root of a target and the response tailored to its path. -/
def prepareTarget (full : RootMap) (hashes : RootHashes) (target : UInt64) :
    Except Error (VerifiedMerkleRoot × List UInt8) := do
  if target = 0 ∨ target ≥ latest.root.epoch then .error .merkleHistoryShape
  else do
    let targetRoot ← okOr .merkleHistoryShape full[target]?
    let targetBytes ← protocol targetRoot.encoded
    let targetHash ← prefixedHash digest merkleRootTypeId targetBytes
    let requirements ← merkleHistoryRequirements latest.root.epoch target
    let roots ← requirements.fullRoots.mapM fun epoch => okOr .merkleHistoryShape full[epoch]?
    let siblings ← requirements.hashes.mapM fun epoch => okOr .merkleHistoryShape hashes[epoch]?
    let tailored ← protocol (HistoricalMerkleRoots.encoded ⟨roots, siblings⟩)
    .ok (⟨target, targetHash, targetBytes, .signedBootstrap [],
      [⟨target, targetHash, some targetBytes⟩]⟩, tailored)

/-- The proof of one target. -/
def authenticateTarget (full : RootMap) (hashes : RootHashes) (target : UInt64) :
    Except Error VerifiedMerkleAdvance := do
  let (untrustedTarget, tailored) ← prepareTarget digest latest full hashes target
  let proof ← verifyMerkleAdvance digest untrustedTarget latest.snapshot.rootBytes tailored
    latest.root.hostchain
  if proof.snapshot.rootHash ≠ latest.snapshot.rootHash then
    .error (.merkleFork latest.root.epoch)
  else .ok proof

/-- The loop over the targets. An epoch that is authenticated already is passed over. -/
def authenticateTargets (digest : Digest) (latest : VerifiedMerkleAdvance) (full : RootMap)
    (hashes : RootHashes) : List UInt64 → RootHashes → Except Error RootHashes
  | [], authenticated => .ok authenticated
  | target :: rest, authenticated =>
    if authenticated.contains target then
      authenticateTargets digest latest full hashes rest authenticated
    else do
      let proof ← authenticateTarget digest latest full hashes target
      let authenticated ← insertChecked .merkleFork proof.authenticatedRoots.toList authenticated
      authenticateTargets digest latest full hashes rest authenticated

/-- The decoded response with its roots and hashes by their epochs. -/
def indexResponse (fullEpochs hashEpochs : List UInt64) (historicalBytes : List UInt8) :
    Except Error (RootMap × RootHashes) := do
  let historical ← protocol (HistoricalMerkleRoots.decode historicalBytes)
  if historical.roots.length ≠ fullEpochs.length ∨
      historical.hashes.length ≠ hashEpochs.length then .error .merkleHistoryShape
  else do
    let full ← indexRoots (fullEpochs.zip historical.roots) ∅
    let hashes ← insertNew .merkleHistoryShape (hashEpochs.zip historical.hashes) ∅
    .ok (full, hashes)

def authenticateHistoricalRootsFromLatest (targets fullEpochs hashEpochs : List UInt64)
    (historicalBytes : List UInt8) : Except Error RootHashes := do
  let (full, hashes) ← indexResponse fullEpochs hashEpochs historicalBytes
  authenticateTargets digest latest full hashes targets latest.authenticatedRoots

/-- `AuthenticatedMerkleRoots::merge`: an epoch proved to two hashes is refused. -/
def RootHashes.merge (self other : RootHashes) : Except Error RootHashes :=
  match other.toList.find? (fun e => self[e.1]?.any (fun known => known ≠ e.2)) with
  | some e => .error (.merkleFork e.1)
  | none => .ok (insertEach self other.toList)

/-! ## Strings that are hashed -/

/-- The strings hashed for one target. -/
def targetInputs (full : RootMap) (hashes : RootHashes) (target : UInt64) : List (List UInt8) :=
  match prepareTarget digest latest full hashes target with
  | .ok (untrustedTarget, tailored) =>
    advanceInputs digest untrustedTarget latest.snapshot.rootBytes tailored
  | .error _ => []

/-- The strings hashed for all targets. -/
def historicalInputs (targets fullEpochs hashEpochs : List UInt64) (historicalBytes : List UInt8) :
    List (List UInt8) :=
  match indexResponse fullEpochs hashEpochs historicalBytes with
  | .ok (full, hashes) => targets.flatMap (targetInputs digest latest full hashes)
  | .error _ => []

end

/-! ## Soundness -/

/-- A verified latest advance of a history: its root is the honest one and so is its set. -/
structure HonestLatest {digest : Digest} (H : History digest) (latest : VerifiedMerkleAdvance) :
    Prop where
  pos : 0 < latest.root.epoch.toNat
  root_eq : latest.root = H.root latest.root.epoch
  bytes_eq : latest.snapshot.rootBytes = latest.root.bytes
  hash_eq : latest.snapshot.rootHash = H.hash latest.root.epoch
  honest : HonestMap H latest.authenticatedRoots

variable {fullEpochs hashEpochs targets : List UInt64}

section

variable {digest : Digest} {H : History digest} {latest : VerifiedMerkleAdvance} {full : RootMap}
  {hashes : RootHashes}

theorem HonestLatest.decode (h : HonestLatest H latest) :
    MerkleRoot.decode latest.snapshot.rootBytes = .ok latest.root := by
  rw [h.bytes_eq, h.root_eq]
  exact H.decode_root h.pos

theorem prepareTarget_eq_ok {target : UInt64} {pinned : VerifiedMerkleRoot} {tailored : List UInt8}
    (h : prepareTarget digest latest full hashes target = .ok (pinned, tailored)) :
    pinned.epoch = target ∧ target.toNat < latest.root.epoch.toNat ∧
      ∀ entry ∈ pinned.authenticatedRoots, entry.epoch = target := by
  obtain ⟨hguard, h⟩ := ite_error_eq_ok.mp h
  obtain ⟨targetRoot, -, h⟩ := bind_eq_ok.mp h
  obtain ⟨targetBytes, -, h⟩ := bind_eq_ok.mp h
  obtain ⟨targetHash, -, h⟩ := bind_eq_ok.mp h
  obtain ⟨requirements, -, h⟩ := bind_eq_ok.mp h
  obtain ⟨roots, -, h⟩ := bind_eq_ok.mp h
  obtain ⟨siblings, -, h⟩ := bind_eq_ok.mp h
  obtain ⟨tailored', -, h⟩ := bind_eq_ok.mp h
  cases h
  rw [not_or, ge_iff_le, UInt64.le_iff_toNat_le] at hguard
  exact ⟨rfl, by omega, fun entry hentry => by rw [List.mem_singleton.mp hentry]⟩

/-- Whatever a response claims, an accepted target proof holds honest hashes only. -/
theorem authenticateTarget_sound (hlatest : HonestLatest H latest) {target : UInt64}
    {proof : VerifiedMerkleAdvance}
    (hfree : CollisionFree digest
      (H.inputs latest.root.epoch ++ targetInputs digest latest full hashes target))
    (h : authenticateTarget digest latest full hashes target = .ok proof) :
    HonestMap H proof.authenticatedRoots := by
  obtain ⟨⟨pinned, tailored⟩, hprepare, h⟩ := bind_eq_ok.mp h
  obtain ⟨proof', hproof, h⟩ := bind_eq_ok.mp h
  obtain ⟨-, h⟩ := ite_error_eq_ok.mp h
  cases h
  obtain ⟨rfl, hlt, hown⟩ := prepareTarget_eq_ok hprepare
  rw [targetInputs, hprepare] at hfree
  obtain ⟨-, -, hmap⟩ := advance_honest hlatest.decode hlatest.root_eq hlt hfree hproof
  intro k v hk
  rcases hmap k v hk with hhonest | ⟨hne, hset⟩
  · exact hhonest
  · -- the untrusted target's own set has the target only
    obtain ⟨entry, hentry, rfl, -⟩ := authenticatedRootSet_cases hset
    exact absurd (hown entry hentry) hne

theorem authenticateTargets_sound (hlatest : HonestLatest H latest) {authenticated out : RootHashes}
    (hhonest : HonestMap H authenticated) (hfree : CollisionFree digest
      (H.inputs latest.root.epoch ++ targets.flatMap (targetInputs digest latest full hashes)))
    (h : authenticateTargets digest latest full hashes targets authenticated = .ok out) :
    HonestMap H out := by
  induction targets generalizing authenticated with
  | nil =>
    cases h
    exact hhonest
  | cons target targets ih =>
    have hrest := hfree.mono (fun x hx => by
      rcases List.mem_append.mp hx with hx | hx
      · exact List.mem_append_left _ hx
      · exact List.mem_append_right _ (List.mem_append_right _ hx))
    rw [authenticateTargets] at h
    split at h
    · exact ih hhonest hrest h
    · obtain ⟨proof, hproof, h⟩ := bind_eq_ok.mp h
      obtain ⟨merged, hmerged, h⟩ := bind_eq_ok.mp h
      have hproofHonest := authenticateTarget_sound hlatest (hfree.mono (fun x hx => by
        rcases List.mem_append.mp hx with hx | hx
        · exact List.mem_append_left _ hx
        · exact List.mem_append_right _ (List.mem_append_left _ hx))) hproof
      refine ih (fun k v hk => ?_) hrest h
      rcases insertChecked_cases hmerged hk with hmem | hk
      · exact hproofHonest k v (Std.ExtTreeMap.mem_toList_iff_getElem?_eq_some.mp hmem)
      · exact hhonest k v hk

/-- For any response, the hashes returned are honest. -/
theorem historicalRoots_sound (hlatest : HonestLatest H latest) {historicalBytes : List UInt8}
    {out : RootHashes} (hfree : CollisionFree digest (H.inputs latest.root.epoch ++
      historicalInputs digest latest targets fullEpochs hashEpochs historicalBytes))
    (h : authenticateHistoricalRootsFromLatest digest latest targets fullEpochs hashEpochs
      historicalBytes = .ok out) : HonestMap H out := by
  obtain ⟨⟨full, hashes⟩, hindex, h⟩ := bind_eq_ok.mp h
  rw [historicalInputs, hindex] at hfree
  exact authenticateTargets_sound hlatest hlatest.honest hfree h

end

/-! ## Completeness -/

section

variable {digest : Digest} {H : History digest} {latest : VerifiedMerkleAdvance} {full : RootMap}
  {hashes : RootHashes} {target : UInt64} {rest : List UInt64}

/-- The maps hold the honest roots and hashes that the path of a target needs. -/
structure TargetFilled (H : History digest) (full : RootMap) (hashes : RootHashes)
    (latest target : UInt64) (rest : List UInt64) : Prop where
  path : SkipPath latest target rest
  roots : ∀ e ∈ target :: rest, full[e]? = some (H.root e)
  hashes : ∀ e ∈ SkipPath.hashEpochs latest target rest, hashes[e]? = some (H.hash e)
  codable : Codable (H.answer ⟨rest, SkipPath.hashEpochs latest target rest⟩).value

theorem mapM_okOr {ε ν : Type} (error : ε) {m : Std.ExtTreeMap UInt64 ν compare} {f : UInt64 → ν}
    {es : List UInt64} (h : ∀ e ∈ es, m[e]? = some (f e)) :
    es.mapM (fun e => okOr error m[e]?) = .ok (es.map f) := by
  rw [mapM_eq_ok_iff, List.forall₂_map_right_iff]
  exact List.forall₂_same.mpr fun e he => okOr_eq_ok.mpr (h e he)

/-- The untrusted root made of an honest one is an honest pin. -/
theorem prepareTarget_honest (hpos : 0 < target.toNat)
    (hfilled : TargetFilled H full hashes latest.root.epoch target rest) :
    prepareTarget digest latest full hashes target =
      .ok (⟨target, H.hash target, (H.root target).bytes, .signedBootstrap [],
        [⟨target, H.hash target, some (H.root target).bytes⟩]⟩,
        wire (H.answer ⟨rest, SkipPath.hashEpochs latest.root.epoch target rest⟩).value) := by
  have hlt := hfilled.path.lt
  have hguard : ¬ (target = 0 ∨ target ≥ latest.root.epoch) := by
    rintro (rfl | hge)
    · exact absurd hpos (by decide)
    · have := UInt64.le_iff_toNat_le.mp hge
      omega
  have hhashable := H.hashable target hpos
  rw [prepareTarget, if_neg hguard]
  refine bind_of_ok (okOr_eq_ok.mpr (hfilled.roots target List.mem_cons_self)) ?_
  refine bind_of_ok (protocol_eq_ok.mpr (MerkleRoot.encoded_eq hhashable.codable)) ?_
  refine bind_eq_ok.mpr ⟨_, (prefixedHash_eq_ok hhashable.codable.encode_eq).mpr
    ⟨hhashable.codable, hhashable.signable, rfl⟩, ?_⟩
  refine bind_of_ok hfilled.path.requirements_eq ?_
  refine bind_eq_ok.mpr ⟨_, mapM_okOr _ fun e he =>
    hfilled.roots e (List.mem_cons_of_mem _ he), ?_⟩
  refine bind_of_ok (mapM_okOr _ hfilled.hashes) ?_
  exact bind_eq_ok.mpr ⟨_, protocol_eq_ok.mpr
    (HistoricalMerkleRoots.encoded_eq hfilled.codable), rfl⟩

theorem untrustedTarget_honest (hpos : 0 < target.toNat) :
    HonestPin H ⟨target, H.hash target, (H.root target).bytes, .signedBootstrap [],
      [⟨target, H.hash target, some (H.root target).bytes⟩]⟩ :=
  ⟨hpos, rfl, rfl, fun entry hentry => by rw [List.mem_singleton.mp hentry],
    ⟨_, List.mem_singleton_self _, rfl⟩⟩

/-- A target whose path is filled honestly is proved. -/
theorem authenticateTarget_honest (hlatest : HonestLatest H latest)
    (hmax : latest.root.epoch.toNat < 65536)
    (hfilled : TargetFilled H full hashes latest.root.epoch target rest) :
    ∃ proof, authenticateTarget digest latest full hashes target = .ok proof ∧
      HonestMap H proof.authenticatedRoots ∧
      proof.authenticatedRoots[target]? = some (H.hash target) := by
  have hpos := hfilled.path.pinned_pos
  have hanswer := H.decode_answer hfilled.codable fun e he => by
    have := (hfilled.path.bounds (List.mem_cons_of_mem _ he)).1
    omega
  obtain ⟨proof, hproof, hadvance⟩ :=
    advance_complete (untrustedTarget_honest hpos) hfilled.path hmax hanswer
  refine ⟨proof, ?_, hadvance.honest, hadvance.pinned_hash⟩
  rw [authenticateTarget, prepareTarget_honest hpos hfilled, ok_bind]
  simp only
  rw [hlatest.bytes_eq, hlatest.root_eq, H.epoch_eq _ hlatest.pos, hproof, ok_bind, if_neg]
  rw [hadvance.hash_eq, hlatest.hash_eq]
  exact not_not.mpr rfl

/-- The hashes of an honest map are those of its epochs. -/
theorem HonestMap.toList_eq {m : RootHashes} (h : HonestMap H m) :
    m.toList = m.keys.map fun e => (e, H.hash e) := by
  rw [← Std.ExtTreeMap.map_fst_toList_eq_keys, List.map_map]
  refine (List.map_id _).symm.trans (List.map_congr_left fun e he => ?_)
  exact Prod.ext rfl (h e.1 e.2 (Std.ExtTreeMap.mem_toList_iff_getElem?_eq_some.mp he))

theorem insertEach_toList_honest {m other : RootHashes} (h : HonestMap H m)
    (hother : HonestMap H other) :
    HonestMap H (insertEach m other.toList) ∧
      ∀ k, m[k]? = some (H.hash k) ∨ other[k]? = some (H.hash k) →
        (insertEach m other.toList)[k]? = some (H.hash k) := by
  rw [hother.toList_eq]
  refine ⟨h.insertEach _, fun k hk => getElem?_insertEach_honest h (hk.symm.imp_left fun hk => ?_)⟩
  rw [Std.ExtTreeMap.mem_keys, ← Std.ExtTreeMap.isSome_getElem?_iff_mem, hk]
  rfl

theorem authenticateTargets_honest (hlatest : HonestLatest H latest)
    (hmax : latest.root.epoch.toNat < 65536)
    (hfilled : ∀ t ∈ targets, ∃ rest, TargetFilled H full hashes latest.root.epoch t rest)
    {authenticated : RootHashes} (hhonest : HonestMap H authenticated) :
    ∃ out, authenticateTargets digest latest full hashes targets authenticated = .ok out ∧
      HonestMap H out ∧
      (∀ k, authenticated[k]? = some (H.hash k) ∨ k ∈ targets → out[k]? = some (H.hash k)) := by
  induction targets generalizing authenticated with
  | nil => exact ⟨authenticated, rfl, hhonest, fun k hk => hk.resolve_right (List.not_mem_nil)⟩
  | cons t targets ih =>
    have hrest : ∀ t ∈ targets, ∃ rest, TargetFilled H full hashes latest.root.epoch t rest :=
      fun t ht => hfilled t (List.mem_cons_of_mem _ ht)
    rw [authenticateTargets]
    by_cases hknown : authenticated.contains t
    · rw [if_pos hknown]
      obtain ⟨out, hout, houtHonest, hkeep⟩ := ih hrest hhonest
      have hself : authenticated[t]? = some (H.hash t) := by
        obtain ⟨v, hv⟩ := Option.isSome_iff_exists.mp
          (Std.ExtTreeMap.isSome_getElem?_iff_mem.mpr (Std.ExtTreeMap.contains_iff_mem.mp hknown))
        rw [hv, hhonest t v hv]
      refine ⟨out, hout, houtHonest, fun k hk => ?_⟩
      rcases hk with hk | hk
      · exact hkeep k (.inl hk)
      · rcases List.mem_cons.mp hk with rfl | hk
        · exact hkeep k (.inl hself)
        · exact hkeep k (.inr hk)
    · rw [if_neg hknown]
      obtain ⟨rest, ht⟩ := hfilled t List.mem_cons_self
      obtain ⟨proof, hproof, hproofHonest, hself⟩ := authenticateTarget_honest hlatest hmax ht
      obtain ⟨hmerged, hmergedKeep⟩ := insertEach_toList_honest hhonest hproofHonest
      obtain ⟨out, hout, houtHonest, hkeep⟩ := ih hrest hmerged
      refine ⟨out, ?_, houtHonest, fun k hk => ?_⟩
      · rw [hproof, ok_bind, hproofHonest.toList_eq, insertChecked_honest _ hhonest, ok_bind,
          ← hproofHonest.toList_eq]
        exact hout
      · rcases hk with hk | hk
        · exact hkeep k (.inl (hmergedKeep k (.inl hk)))
        · rcases List.mem_cons.mp hk with rfl | hk
          · exact hkeep k (.inl (hmergedKeep k (.inr hself)))
          · exact hkeep k (.inr hk)

theorem merge_honest {m other : RootHashes} (h : HonestMap H m) (hother : HonestMap H other) :
    RootHashes.merge m other = .ok (insertEach m other.toList) := by
  have hnone : other.toList.find? (fun e => m[e.1]?.any (fun known => known ≠ e.2)) = none := by
    rw [List.find?_eq_none]
    intro e he
    have hv := hother e.1 e.2 (Std.ExtTreeMap.mem_toList_iff_getElem?_eq_some.mp he)
    cases hk : m[e.1]? with
    | none => simp
    | some v => simp [h e.1 v hk, hv]
  rw [RootHashes.merge, hnone]

/-- The epochs asked for one target: those of its path and their pointers. -/
structure Covers (fullEpochs hashEpochs : List UInt64) (latest target : UInt64)
    (rest : List UInt64) : Prop where
  path : SkipPath latest target rest
  roots : target :: rest ⊆ fullEpochs
  hashes : SkipPath.hashEpochs latest target rest ⊆ hashEpochs

theorem indexRoots_honest (hnodup : fullEpochs.Nodup) (hpos : ∀ e ∈ fullEpochs, 0 < e.toNat)
    {m : RootMap} (hnew : ∀ e ∈ fullEpochs, e ∉ m) :
    indexRoots (fullEpochs.map fun e => (e, H.root e)) m =
      .ok (insertEach m (fullEpochs.map fun e => (e, H.root e))) := by
  induction fullEpochs generalizing m with
  | nil => rfl
  | cons e es ih =>
    rw [List.nodup_cons] at hnodup
    have hguard : ¬ ((H.root e).epoch ≠ e ∨ m.contains e = true) := by
      rw [H.epoch_eq e (hpos e List.mem_cons_self), Std.ExtTreeMap.contains_iff_mem]
      exact fun h => h.elim (fun h => h rfl) (hnew e List.mem_cons_self)
    rw [List.map_cons, indexRoots, if_neg hguard]
    refine ih hnodup.2 (fun e he => hpos e (List.mem_cons_of_mem _ he)) fun k hk hmem => ?_
    rcases Std.ExtTreeMap.mem_insert.mp hmem with heq | hmem
    · rw [Std.compare_eq_iff_eq] at heq
      exact hnodup.1 (heq ▸ hk)
    · exact hnew k (List.mem_cons_of_mem _ hk) hmem

/-- The maps made of an honest answer to distinct epochs. -/
theorem indexResponse_honest (hfull : fullEpochs.Nodup) (hhash : hashEpochs.Nodup)
    (hpos : ∀ e ∈ fullEpochs, 0 < e.toNat)
    (hcod : Codable (H.answer ⟨fullEpochs, hashEpochs⟩).value) :
    indexResponse fullEpochs hashEpochs (wire (H.answer ⟨fullEpochs, hashEpochs⟩).value) =
      .ok (insertEach ∅ (fullEpochs.map fun e => (e, H.root e)),
        insertEach ∅ (hashEpochs.map fun e => (e, H.hash e))) := by
  have hkeys : (hashEpochs.map fun e => (e, H.hash e)).map Prod.fst = hashEpochs := by
    rw [List.map_map]
    exact List.map_id _
  rw [indexResponse, protocol_eq_ok.mpr (H.decode_answer hcod hpos), ok_bind,
    if_neg (by simp [History.answer])]
  simp only [History.answer]
  rw [zip_map_self, zip_map_self, indexRoots_honest hfull hpos (by simp), ok_bind,
    insertNew_ok _ (by rw [hkeys]; exact hhash) (by simp), ok_bind]

/-- The maps of an honest answer are filled for every target it covers. -/
theorem Covers.filled (hfull : fullEpochs.Nodup) (hhash : hashEpochs.Nodup)
    (hcod : Codable (H.answer ⟨fullEpochs, hashEpochs⟩).value) {latest : UInt64}
    (hc : Covers fullEpochs hashEpochs latest target rest) :
    TargetFilled H (insertEach ∅ (fullEpochs.map fun e => (e, H.root e)))
      (insertEach ∅ (hashEpochs.map fun e => (e, H.hash e))) latest target rest := by
  have hrest := (List.nodup_cons.mp hc.path.nodup).2
  have hlookup {ν : Type} (f : UInt64 → ν) {es : List UInt64} (hes : es.Nodup) {e : UInt64}
      (he : e ∈ es) : (insertEach ∅ (es.map fun e => (e, f e)))[e]? = some (f e) := by
    refine (getElem?_insertEach ?_ _ _).mpr (.inl (List.mem_map.mpr ⟨e, he, rfl⟩))
    rw [List.map_map]
    exact (List.map_id es).symm ▸ hes
  refine ⟨hc.path, fun e he => hlookup H.root hfull (hc.roots he),
    fun e he => hlookup H.hash hhash (hc.hashes he), ?_⟩
  exact H.answer_codable_mono hcod (List.Subset.trans (List.subset_cons_self ..) hc.roots) hrest
    hc.hashes SkipPath.hashEpochs_nodup

section

variable {targets fullEpochs hashEpochs : List UInt64} (hlatest : HonestLatest H latest)
  (hfull : fullEpochs.Nodup) (hhash : hashEpochs.Nodup) (hpos : ∀ e ∈ fullEpochs, 0 < e.toNat)
  (hcovers : ∀ t ∈ targets, ∃ rest, Covers fullEpochs hashEpochs latest.root.epoch t rest)
  (hcod : Codable (H.answer ⟨fullEpochs, hashEpochs⟩).value)

include hlatest hfull hhash hpos hcovers hcod

/-- The honest answer to epochs that cover every target authenticates every target. -/
theorem historicalRoots_complete (hmax : latest.root.epoch.toNat < 65536) :
    ∃ out, authenticateHistoricalRootsFromLatest digest latest targets fullEpochs hashEpochs
        (wire (H.answer ⟨fullEpochs, hashEpochs⟩).value) = .ok out ∧ HonestMap H out ∧
      (∀ k, latest.authenticatedRoots[k]? = some (H.hash k) ∨ k ∈ targets →
        out[k]? = some (H.hash k)) := by
  rw [authenticateHistoricalRootsFromLatest, indexResponse_honest hfull hhash hpos hcod, ok_bind]
  refine authenticateTargets_honest hlatest hmax (fun t ht => ?_) hlatest.honest
  obtain ⟨rest, hc⟩ := hcovers t ht
  exact ⟨rest, hc.filled hfull hhash hcod⟩

/-- The strings hashed for an honest answer are strings of the history. -/
theorem historicalInputs_honest :
    historicalInputs digest latest targets fullEpochs hashEpochs
      (wire (H.answer ⟨fullEpochs, hashEpochs⟩).value) ⊆ H.inputs latest.root.epoch := by
  rw [historicalInputs, indexResponse_honest hfull hhash hpos hcod]
  intro input hinput
  obtain ⟨t, ht, hinput⟩ := List.mem_flatMap.mp hinput
  obtain ⟨rest, hc⟩ := hcovers t ht
  have hfilled := hc.filled hfull hhash hcod
  have htarget := hc.path.pinned_pos
  rw [targetInputs, prepareTarget_honest htarget hfilled] at hinput
  have hbytes : latest.snapshot.rootBytes = (H.root latest.root.epoch).bytes := by
    rw [hlatest.bytes_eq, ← hlatest.root_eq]
  simp only [hbytes] at hinput
  refine advanceInputs_honest (untrustedTarget_honest htarget) hc.path (H.decode_answer
    hfilled.codable fun e he => ?_) hinput
  have := (hc.path.bounds (List.mem_cons_of_mem _ he)).1
  omega

end

end

end Foks.Verify
