/-
  Completeness of the advance: an honest answer is accepted.

  From an honest pin, a response that answers the request with the roots and hashes of the
  history fills the map honestly at every epoch of the path and at all of their pointers, so
  each check of the walk holds. Epochs stay below 65536: from there on an epoch can have
  sixteen pointers, and a list of sixteen is refused by the signable encoding.
-/
import Foks.Verify.AdvanceSpec

namespace Foks.Verify

open Foks.Lib Foks.Snowpack Foks.Crypto
open Foks.Proto (MerkleRoot HistoricalMerkleRoots)

variable {rest : List UInt64} {latest : UInt64} {historicalBytes : List UInt8} {roots : RootMap}

section

variable {digest : Digest} {H : History digest}

/-- Every hash of the map is the honest one. -/
def HonestMap (H : History digest) (hashes : RootHashes) : Prop :=
  ∀ k v, hashes[k]? = some v → v = H.hash k

variable {hashes : RootHashes} {pinned : VerifiedMerkleRoot}

theorem HonestMap.insert (h : HonestMap H hashes) (e : UInt64) :
    HonestMap H (hashes.insert e (H.hash e)) := by
  intro k v hk
  rw [getElem?_insert_self_or] at hk
  split at hk
  · rename_i heq
    rw [← heq]
    exact (Option.some.inj hk).symm
  · exact h k v hk

theorem HonestMap.insertEach (h : HonestMap H hashes) (es : List UInt64) :
    HonestMap H (insertEach hashes (es.map fun e => (e, H.hash e))) := by
  induction es generalizing hashes with
  | nil => exact h
  | cons e es ih => exact ih (h.insert e)

/-- Honest hashes never conflict with an honest map. -/
theorem insertChecked_honest (conflict : UInt64 → Error) (h : HonestMap H hashes)
    (es : List UInt64) :
    insertChecked conflict (es.map fun e => (e, H.hash e)) hashes =
      .ok (insertEach hashes (es.map fun e => (e, H.hash e))) := by
  induction es generalizing hashes with
  | nil => rfl
  | cons e es ih =>
    have hsame : ¬ hashes[e]?.any (fun known => known ≠ H.hash e) = true := by
      cases hk : hashes[e]? with
      | none => simp
      | some v => simp [h e v hk]
    rw [List.map_cons, insertChecked, if_neg hsame, ih (h.insert e)]
    rfl

/-- Filling with epochs finds each of them, and keeps what an honest map has. -/
theorem getElem?_insertEach_honest (h : HonestMap H hashes) {es : List UInt64} {k : UInt64}
    (hk : k ∈ es ∨ hashes[k]? = some (H.hash k)) :
    (insertEach hashes (es.map fun e => (e, H.hash e)))[k]? = some (H.hash k) := by
  induction es generalizing hashes with
  | nil => simpa using hk
  | cons e es ih =>
    refine ih (h.insert e) ?_
    rw [getElem?_insert_self_or]
    by_cases heq : e = k
    · subst heq
      exact .inr (if_pos rfl)
    · rw [if_neg heq]
      rcases hk with hmem | hk
      · exact .inl ((List.mem_cons.mp hmem).resolve_left (fun h => heq h.symm))
      · exact .inr hk

/-- An honest pin: its root, its hash, and its own set, which has the pin itself. -/
structure HonestPin (H : History digest) (pinned : VerifiedMerkleRoot) : Prop where
  pos : 0 < pinned.epoch.toNat
  bytes_eq : pinned.rootBytes = (H.root pinned.epoch).bytes
  hash_eq : pinned.rootHash = H.hash pinned.epoch
  entries : ∀ entry ∈ pinned.authenticatedRoots, entry.rootHash = H.hash entry.epoch
  self : ∃ entry ∈ pinned.authenticatedRoots, entry.epoch = pinned.epoch

/-- The own set of an honest pin, as the epochs it has. -/
theorem HonestPin.set_eq (h : HonestPin H pinned) :
    pinned.authenticatedRootSet =
      insertEach ∅ ((pinned.authenticatedRoots.map AuthenticatedMerkleRoot.epoch).map
        fun e => (e, H.hash e)) := by
  rw [VerifiedMerkleRoot.authenticatedRootSet, List.map_map]
  congr 1
  refine List.map_congr_left fun entry hentry => ?_
  rw [h.entries entry hentry]
  rfl

theorem honestMap_empty : HonestMap H ∅ := fun k v hk => by simp at hk

/-! ## The walk -/

theorem pointersOf_honest {e : UInt64}
    (hknown : ∀ t ∈ merkleBackpointerSequence e, hashes[t]? = some (H.hash t)) :
    pointersOf hashes e = .ok (H.pointers e) := by
  refine pointersOf_eq_ok.mpr ⟨?_, ?_⟩
  · rw [History.pointers, List.map_map]
    exact List.map_id _
  · intro p hp
    obtain ⟨t, ht, rfl⟩ := List.mem_map.mp hp
    exact hknown t ht

/-- Below epoch 65536 the pointers of a root can be hashed, to what the root commits to. -/
theorem hashBackPointers_honest {e : UInt64} (hpos : 0 < e.toNat) (hmax : e.toNat < 65536) :
    hashBackPointers digest (H.pointers e) = .ok (H.root e).backPointers := by
  have hlen : (H.pointers e).length < 16 := by
    have hlen := congrArg List.length (MerkleStore.backPointerSequence_eq e)
    rw [List.length_map] at hlen
    rw [History.pointers, List.length_map, merkleBackpointerSequence_eq, hlen]
    exact MerkleStore.epochPointers_length_lt hmax
  exact hashBackPointers_eq_ok.mpr
    ⟨H.pointers_codable e, backPointersValue_signable hlen, H.pointers_eq e hpos⟩

theorem checkPath_honest {path : List UInt64} {prior : Option (List (UInt64 × Hash))}
    (hchain : path.IsChain (fun a b => b ∈ merkleBackpointerSequence a))
    (hrange : ∀ e ∈ path, 0 < e.toNat ∧ e.toNat < 65536)
    (hroots : ∀ e ∈ path, roots[e]? = some (H.root e))
    (hhashes : ∀ e ∈ path, hashes[e]? = some (H.hash e))
    (hknown : ∀ e ∈ path, ∀ t ∈ merkleBackpointerSequence e, hashes[t]? = some (H.hash t))
    (hprior : ∀ ps, prior = some ps → ∀ e, path.head? = some e → (e, H.hash e) ∈ ps) :
    checkPath digest roots hashes path prior =
      .ok ((path.getLast?.map H.pointers).or prior) := by
  induction path generalizing prior with
  | nil => rfl
  | cons e path ih =>
    obtain ⟨hpos, hmax⟩ := hrange e List.mem_cons_self
    have hcheck : checkPrior hashes e prior = .ok () := by
      cases prior with
      | none => rfl
      | some ps =>
        have hmem := hprior ps rfl e rfl
        simp [checkPrior, hhashes e List.mem_cons_self, okOr, hmem]
    have hrest := @ih (some (H.pointers e)) hchain.tail
      (fun s hs => hrange s (List.mem_cons_of_mem _ hs))
      (fun s hs => hroots s (List.mem_cons_of_mem _ hs))
      (fun s hs => hhashes s (List.mem_cons_of_mem _ hs))
      (fun s hs => hknown s (List.mem_cons_of_mem _ hs))
      (by
        intro ps hps s hs
        cases hps
        cases path with
        | nil => cases hs
        | cons s' path =>
          cases hs
          exact List.mem_map.mpr ⟨_, (List.isChain_cons_cons.mp hchain).1, rfl⟩)
    rw [checkPath, hroots e List.mem_cons_self, okOr, ok_bind, hcheck, ok_bind,
      pointersOf_honest (hknown e List.mem_cons_self), ok_bind,
      hashBackPointers_honest hpos hmax, ok_bind, if_neg (by simp), hrest]
    cases path with
    | nil => rfl
    | cons s path =>
      rw [List.getLast?_cons_cons]
      cases hlast : (s :: path).getLast? with
      | none => simp at hlast
      | some last => rfl

/-! ## The collected map -/

/-- What an honest response leaves in the two maps. -/
structure HonestlyFilled (H : History digest) (pinned latest : UInt64) (rest : List UInt64)
    (roots : RootMap) (hashes : RootHashes) : Prop where
  honest : HonestMap H hashes
  roots_codable : ∀ (k : UInt64) (root : MerkleRoot), roots[k]? = some root → Codable root.value
  path_root : ∀ e ∈ latest :: rest, roots[e]? = some (H.root e)
  path_hash : ∀ e ∈ latest :: rest, hashes[e]? = some (H.hash e)
  pointer_hash : ∀ e ∈ latest :: rest, ∀ t ∈ merkleBackpointerSequence e,
    hashes[t]? = some (H.hash t)
  pinned_hash : hashes[pinned]? = some (H.hash pinned)

theorem zip_map_self {α β : Type} (f : α → β) (l : List α) :
    l.zip (l.map f) = l.map fun a => (a, f a) := by
  induction l with
  | nil => rfl
  | cons a l ih => rw [List.map_cons, List.zip_cons_cons, ih, List.map_cons]

theorem collectHistory_honest (hpin : HonestPin H pinned)
    (hpath : SkipPath latest pinned.epoch rest) :
    ∃ roots hashes, collectHistory digest pinned (H.root pinned.epoch) (H.root latest)
        (H.hash latest) ⟨rest, SkipPath.hashEpochs latest pinned.epoch rest⟩
        ⟨rest.map H.root, (SkipPath.hashEpochs latest pinned.epoch rest).map H.hash⟩ =
          .ok (roots, hashes) ∧
      HonestlyFilled H pinned.epoch latest rest roots hashes := by
  have hpinPos := hpin.pos
  have hlt := hpath.lt
  have hpos : 0 < latest.toNat := by omega
  have hepoch := H.epoch_eq latest hpos
  have hrestPos (e : UInt64) (he : e ∈ rest) : 0 < e.toNat := by
    have := (hpath.bounds (List.mem_cons_of_mem _ he)).1
    omega
  have hset : HonestMap H pinned.authenticatedRootSet := by
    rw [hpin.set_eq]
    exact honestMap_empty.insertEach _
  have hself : pinned.authenticatedRootSet[pinned.epoch]? = some (H.hash pinned.epoch) := by
    obtain ⟨entry, hentry, heq⟩ := hpin.self
    rw [hpin.set_eq]
    exact getElem?_insertEach_honest honestMap_empty (.inl (List.mem_map.mpr ⟨entry, hentry, heq⟩))
  have hsame : ¬ pinned.authenticatedRootSet[latest]?.any (fun k => k ≠ H.hash latest) = true := by
    cases hk : pinned.authenticatedRootSet[latest]? with
    | none => simp
    | some v => simp [hset latest v hk]
  -- the map before, between and after the two lists of the response
  let before := pinned.authenticatedRootSet.insert latest (H.hash latest)
  let between := insertEach before (rest.map fun e => (e, H.hash e))
  let hashes := insertEach between
    ((SkipPath.hashEpochs latest pinned.epoch rest).map fun e => (e, H.hash e))
  let roots : RootMap := insertEach (insertEach ∅ [(pinned.epoch, H.root pinned.epoch),
    (latest, H.root latest)]) (rest.map fun e => (e, H.root e))
  have hbefore : HonestMap H before := hset.insert latest
  have hbetween : HonestMap H between := hbefore.insertEach rest
  have hroots : insertRoots digest (rest.map fun e => (e, H.root e))
      (insertEach ∅ [(pinned.epoch, H.root pinned.epoch), (latest, H.root latest)]) before =
        .ok (roots, between) := by
    refine insertRoots_eq_ok.mpr ⟨?_, rfl, by rw [List.map_map]; rfl⟩
    intro p hp
    obtain ⟨e, he, rfl⟩ := List.mem_map.mp hp
    exact ⟨H.epoch_eq e (hrestPos e he), H.hashable e (hrestPos e he)⟩
  refine ⟨roots, hashes, ?_, ?_⟩
  · rw [collectHistory, hepoch]
    rw [if_neg hsame, zip_map_self, zip_map_self, hroots, ok_bind]
    simp only
    rw [insertHashes, insertChecked_honest _ hbetween]
    rfl
  · have hkeep (k : UInt64) (hk : k ∈ rest ∨ before[k]? = some (H.hash k)) :
        hashes[k]? = some (H.hash k) :=
      getElem?_insertEach_honest hbetween (.inr (getElem?_insertEach_honest hbefore hk))
    have hpinned : hashes[pinned.epoch]? = some (H.hash pinned.epoch) := by
      refine hkeep _ (.inr ?_)
      rw [getElem?_insert_self_or, if_neg (fun heq => by rw [heq] at hlt; omega), hself]
    refine ⟨hbetween.insertEach _, ?_, ?_, ?_, ?_, hpinned⟩
    · intro k root hk
      have hcod (e : UInt64) (he : 0 < e.toNat) := (H.hashable e he).codable
      rcases getElem?_insertEach_cases hk with hmem | hk
      · obtain ⟨e, he, heq⟩ := List.mem_map.mp hmem
        cases heq
        exact hcod _ (hrestPos _ he)
      · rcases getElem?_insertEach_cases hk with hmem | hk
        · rcases List.mem_cons.mp hmem with heq | hmem
          · cases heq
            exact hcod _ hpinPos
          · cases List.mem_singleton.mp hmem
            exact hcod _ hpos
        · simp at hk
    · have hnodup := List.nodup_cons.mp hpath.nodup
      have hkeys : (rest.map fun e => (e, H.root e)).map Prod.fst = rest := by
        rw [List.map_map]
        exact List.map_id _
      have hlookup (m : RootMap) := @getElem?_insertEach _ _ _ _ _ m
        (rest.map fun e => (e, H.root e)) (by rw [hkeys]; exact hnodup.2)
      intro e he
      rcases List.mem_cons.mp he with rfl | he
      · refine (hlookup _ _ _).mpr (.inr ⟨by rw [hkeys]; exact hnodup.1, ?_⟩)
        rw [insertEach_cons, insertEach_cons, insertEach_nil, getElem?_insert_self_or, if_pos rfl]
      · exact (hlookup _ _ _).mpr (.inl (List.mem_map.mpr ⟨e, he, rfl⟩))
    · intro e he
      rcases List.mem_cons.mp he with rfl | he
      · refine hkeep _ (.inr ?_)
        rw [getElem?_insert_self_or, if_pos rfl]
      · exact hkeep e (.inl he)
    · intro e he t ht
      by_cases hp : t = pinned.epoch
      · rw [hp]
        exact hpinned
      · exact getElem?_insertEach_honest hbetween
          (.inl (SkipPath.mem_hashEpochs.mpr ⟨hp, e, he, ht⟩))

/-! ## The advance -/

theorem mergeEntry_ok
    (hcod : ∀ (k : UInt64) (root : MerkleRoot), roots[k]? = some root → Codable root.value)
    (latest : UInt64) (latestBytes : List UInt8) (e : UInt64 × Hash) (entries : RootEntries) :
    ∃ entries', mergeEntry latest latestBytes roots entries e = .ok entries' := by
  have hbytes : ∃ rootBytes, entryBytes latest latestBytes roots e.1 = .ok rootBytes := by
    unfold entryBytes
    split
    · exact ⟨_, rfl⟩
    · cases hk : roots[e.1]? with
      | none => exact ⟨_, rfl⟩
      | some root =>
        simp only
        rw [MerkleRoot.encoded_eq (hcod _ _ hk)]
        exact ⟨_, rfl⟩
  obtain ⟨rootBytes, hbytes⟩ := hbytes
  rw [mergeEntry, hbytes, ok_bind]
  exact ⟨_, rfl⟩

/-- The advance that an honest response leads to. -/
structure HonestAdvance (H : History digest) (pinned latest : UInt64)
    (advance : VerifiedMerkleAdvance) : Prop where
  root_eq : advance.root = H.root latest
  hash_eq : advance.snapshot.rootHash = H.hash latest
  bytes_eq : advance.snapshot.rootBytes = (H.root latest).bytes
  honest : HonestMap H advance.authenticatedRoots
  pinned_hash : advance.authenticatedRoots[pinned]? = some (H.hash pinned)

theorem connectLatest_honest (hpin : HonestPin H pinned) (hpath : SkipPath latest pinned.epoch rest)
    (hmax : latest.toNat < 65536) (hhist : HistoricalMerkleRoots.decode historicalBytes =
      .ok ⟨rest.map H.root, (SkipPath.hashEpochs latest pinned.epoch rest).map H.hash⟩) :
    ∃ advance, connectLatest digest pinned (H.root pinned.epoch) (H.root latest) (H.hash latest)
        (H.root latest).bytes historicalBytes = .ok advance ∧
      HonestAdvance H pinned.epoch latest advance := by
  have hpos : 0 < latest.toNat := by have := hpath.lt; omega
  obtain ⟨roots, hashes, hcollect, hfilled⟩ := collectHistory_honest hpin hpath
  have hrange : ∀ e ∈ latest :: rest, 0 < e.toNat ∧ e.toNat < 65536 := by
    intro e he
    have := hpath.bounds he
    omega
  have hchain := List.isChain_append.mp hpath.linked
  have hwalk : checkPath digest roots hashes (latest :: rest) none = _ :=
    checkPath_honest hchain.1 hrange hfilled.path_root hfilled.path_hash hfilled.pointer_hash
      (fun _ h => nomatch h)
  obtain ⟨last, hlast⟩ : ∃ last, (latest :: rest).getLast? = some last := by
    exact ⟨_, rfl⟩
  have hpointer : (pinned.epoch, pinned.rootHash) ∈ H.pointers last := by
    rw [hpin.hash_eq]
    refine List.mem_map.mpr ⟨pinned.epoch, ?_, rfl⟩
    exact hchain.2.2 last hlast pinned.epoch rfl
  obtain ⟨entries, hentries⟩ := foldlM_ok
    (fun e (_ : e ∈ hashes.toList) =>
      mergeEntry_ok hfilled.roots_codable latest (H.root latest).bytes e)
    (insertEach ∅ (pinned.authenticatedRoots.map fun root => (root.epoch, root)))
  refine ⟨advanceTo pinned (H.root latest) (H.hash latest) (H.root latest).bytes historicalBytes
    hashes entries, ?_, ⟨rfl, rfl, rfl, hfilled.honest, hfilled.pinned_hash⟩⟩
  rw [connectLatest, H.epoch_eq latest hpos, hpath.requirements_eq, ok_bind,
    protocol_eq_ok.mpr hhist, ok_bind, if_neg (by simp), hcollect, ok_bind]
  simp only
  rw [hpath.collectRoots_eq, hwalk, hlast, ok_bind]
  simp only [Option.map_some, Option.some_or, okOr, ok_bind]
  rw [if_neg (by simpa using hpointer), hentries, ok_bind]

/-- An honest answer to the request is accepted, from any honest pin. -/
theorem advance_complete (hpin : HonestPin H pinned) (hpath : SkipPath latest pinned.epoch rest)
    (hmax : latest.toNat < 65536) (hhist : HistoricalMerkleRoots.decode historicalBytes =
      .ok ⟨rest.map H.root, (SkipPath.hashEpochs latest pinned.epoch rest).map H.hash⟩) :
    ∃ advance, verifyMerkleAdvance digest pinned (H.root latest).bytes historicalBytes
        (H.root latest).hostchain = .ok advance ∧ HonestAdvance H pinned.epoch latest advance := by
  have hlt := hpath.lt
  have hpos : 0 < latest.toNat := by omega
  obtain ⟨advance, hconnect, hadvance⟩ := connectLatest_honest hpin hpath hmax hhist
  refine ⟨advance, ?_, hadvance⟩
  refine (verifyMerkleAdvance_eq_ok_iff (H.decode_root hpos) (by
    rw [H.epoch_eq latest hpos]; exact hlt)).mpr ⟨H.root pinned.epoch, ?_, ?_⟩
  · rw [hpin.bytes_eq]
    exact H.decode_root hpin.pos
  · exact ⟨H.hashable _ hpin.pos, H.epoch_eq _ hpin.pos, hpin.hash_eq.symm, rfl,
      H.hashable _ hpos, hconnect⟩

end

/-- The verifier's pointers and walk are the store's, the walk falls and ends at a pointer to its
    end, and from every honest pin the honest answer to the request is accepted. -/
theorem skipPath_complete :
    (∀ epoch, MerkleStore.backPointerSequence epoch = merkleBackpointerSequence epoch) ∧
    (∀ start stop : UInt64, 1 ≤ stop → stop ≤ start →
      MerkleStore.collectRoots start stop = some (merkleCollectRoots start stop) ∧
      (merkleCollectRoots start stop).1.Pairwise (· > ·) ∧
      (stop < start → ∃ last, (merkleCollectRoots start stop).1.getLast? = some last ∧
        stop ∈ merkleBackpointerSequence last)) ∧
    (∀ (digest : Digest) (H : History digest) (pinned : VerifiedMerkleRoot) (latest : UInt64),
      HonestPin H pinned → pinned.epoch < latest → latest ≤ 65535 →
      ∃ history, merkleHistoryRequirements latest pinned.epoch = .ok history ∧
        ∀ historicalBytes, HistoricalMerkleRoots.decode historicalBytes = .ok (H.answer history) →
          ∃ advance, verifyMerkleAdvance digest pinned (H.root latest).bytes historicalBytes
            (H.root latest).hostchain = .ok advance) := by
  refine ⟨fun epoch => (merkleBackpointerSequence_eq epoch).symm, ?_, ?_⟩
  · intro start stop hone hle
    have hpos : 0 < stop.toNat := by
      have := UInt64.le_iff_toNat_le.mp hone
      simp only [UInt64.reduceToNat] at this
      omega
    refine ⟨merkleCollectRoots_eq hpos, ?_, ?_⟩
    · obtain ⟨path, hpath⟩ := (MerkleStore.descends hpos).exists_descent start
      have hroots := MerkleStore.collectRoots_eq hpos hpath
      rw [merkleCollectRoots_eq hpos] at hroots
      rw [Option.some.inj hroots]
      exact (hpath.decreasing (MerkleStore.descends hpos)).imp UInt64.lt_iff_toNat_lt.mpr
    · intro hlt
      obtain ⟨rest, hpath⟩ := exists_skipPath hpos (UInt64.lt_iff_toNat_lt.mp hlt)
      rw [hpath.collectRoots_eq, List.getLast?_cons]
      refine ⟨_, rfl, (List.isChain_append.mp hpath.linked).2.2 _ ?_ stop rfl⟩
      exact List.getLast?_cons
  · intro digest H pinned latest hpin hlt hmax
    obtain ⟨rest, hpath⟩ := exists_skipPath hpin.pos (UInt64.lt_iff_toNat_lt.mp hlt)
    have hmax : latest.toNat < 65536 := Nat.lt_succ_of_le (UInt64.le_iff_toNat_le.mp hmax)
    refine ⟨_, hpath.requirements_eq, fun historicalBytes hhist => ?_⟩
    obtain ⟨advance, hadvance, -⟩ := advance_complete hpin hpath hmax hhist
    exact ⟨advance, hadvance⟩

/-! ## A run of the sample history -/

theorem samplePin_honest {epoch : UInt64} (hpos : 0 < epoch.toNat) :
    HonestPin sampleHistory (samplePin epoch) where
  pos := hpos
  bytes_eq := rfl
  hash_eq := rfl
  entries := by
    intro entry hentry
    rw [List.mem_singleton.mp hentry]
  self := ⟨_, List.mem_singleton_self _, rfl⟩

/-- What the server answers for the way from epoch 5 down to epoch 1: root 4, hashes 4, 3 and 2. -/
def sampleAnswer : HistoricalMerkleRoots := sampleHistory.answer ⟨[4], [4, 3, 2]⟩

theorem sampleAnswer_codable : Codable sampleAnswer.value := by
  have hhash (a : Hash) : a.bytes.length = 32 := a.size_eq
  have hfits : Fits 2 (sampleHistory.root 4).value := plain_fits (sampleHistory_plain 4) (by omega)
  refine ⟨?_, ?_⟩
  · simp [sampleAnswer, History.answer, HistoricalMerkleRoots.value, Proto.listValue, Fits, FitsAll,
      hhash, hfits, maxDepth, u32Max]
  · simp [sampleAnswer, History.answer, HistoricalMerkleRoots.value, Proto.listValue, Value.size,
      Value.sizes, plain_size (sampleHistory_plain 4), maximumDecodedValues]

theorem sampleAnswer_decode :
    HistoricalMerkleRoots.decode (wire sampleAnswer.value) = .ok sampleAnswer := by
  refine HistoricalMerkleRoots.decode_value sampleAnswer_codable fun root hroot => ?_
  rw [List.mem_singleton.mp hroot]
  exact fun h => absurd ((sampleHistory.epoch_eq 4 (by decide)).symm.trans h) (by decide)

theorem skipPath_complete_sample :
    ∃ advance, verifyMerkleAdvance Sha512.hash256 (samplePin 1) (sampleHistory.root 5).bytes
      (wire sampleAnswer.value) (sampleHistory.root 5).hostchain = .ok advance := by
  obtain ⟨history, hrequest, haccept⟩ := skipPath_complete.2.2 _ sampleHistory (samplePin 1) 5
    (samplePin_honest (by decide)) (by decide) (by decide)
  have hknown : merkleHistoryRequirements 5 1 = .ok ⟨[4], [4, 3, 2]⟩ := by decide +kernel
  obtain rfl : ⟨[4], [4, 3, 2]⟩ = history := Except.ok.inj (hknown.symm.trans hrequest)
  exact haccept _ sampleAnswer_decode

end Foks.Verify
