/-
  Stored anchors restore exactly.

  An advance keeps the entries of the pin and adds entries for the epochs it learned about; the
  entries are in the order of their epochs and the last one is the head's, with its bytes
  (`Ordered.advance`). So the flat list of the last root holds the head of every earlier one, and
  replaying the nested evidence with it gives back each of them (`Restorable.advance`). Hostchain
  links that follow the tail of a root are not looked at by the advance to it, while restoration
  checks the whole chain.
-/
import Foks.Verify.AdvanceSound
import Foks.Verify.HostchainKeys
import Foks.Verify.MerkleAnchor

namespace Foks.Verify

open Std (ExtTreeMap)
open Foks.Lib Foks.Snowpack Foks.Crypto Foks.Proto

/-! ## Host chains that grow -/

variable {links hostchain : List HostchainLink} {pinned v' : VerifiedMerkleRoot}
  {bytes signedBytes : List UInt8} {chain state s prior : HostchainState} {latestHash hash : Hash}
  {e : UInt64 × Hash} {rest : List UInt64} {expected : HostchainTail} {k epoch : UInt64}
    {steps : List AnchorStep}

section

variable {digest : Digest} {scheme : SignatureScheme} {parser : CertificateParser}

theorem hostchainAtTailLoop_append
    (h : hostchainAtTailLoop digest scheme parser expected s links = .ok state)
    (more : List HostchainLink) :
    hostchainAtTailLoop digest scheme parser expected s (links ++ more) = .ok state := by
  induction links generalizing s with
  | nil => cases h
  | cons link links ih =>
    obtain ⟨next, hnext, h⟩ := bind_eq_ok.mp h
    refine bind_eq_ok.mpr ⟨next, hnext, ?_⟩
    split
    · rename_i hseqno
      rwa [if_pos hseqno] at h
    · rename_i hseqno
      rw [if_neg hseqno] at h
      exact ih h

theorem verifyHostchainAtTail_append
    (h : verifyHostchainAtTail digest scheme parser links expected = .ok state)
    (more : List HostchainLink) :
    verifyHostchainAtTail digest scheme parser (links ++ more) expected = .ok state :=
  hostchainAtTailLoop_append h more

theorem verifyHostchainLink_seqno {link : HostchainLink}
    (h : verifyHostchainLink digest scheme parser prior link = .ok s) :
    s.seqno.toNat = prior.seqno.toNat + 1 := by
  obtain ⟨change, expected, hpassed⟩ := verifyHostchainLink_eq_ok h
  have hframe := ((prior.moved digest link change).foldl_apply_frame change.changes).1
  have hseqno : s.seqno = change.chainer.seqno := by
    rw [hpassed.state]
    split <;> exact hframe
  rw [hseqno, hpassed.seqno, hpassed.expected_eq]

theorem foldlM_verifyHostchainLink_seqno
    (h : links.foldlM (verifyHostchainLink digest scheme parser) prior = .ok s) :
    s.seqno.toNat = prior.seqno.toNat + links.length := by
  induction links generalizing prior with
  | nil =>
    cases h
    rfl
  | cons link links ih =>
    obtain ⟨mid, hmid, h⟩ := foldlM_cons_eq_ok.mp h
    rw [ih h, verifyHostchainLink_seqno hmid, List.length_cons]
    omega

/-- A whole chain is the chain up to its own tail. -/
theorem hostchainAtTailLoop_whole (hne : links ≠ [])
    (h : links.foldlM (verifyHostchainLink digest scheme parser) prior = .ok s) :
    hostchainAtTailLoop digest scheme parser ⟨s.seqno, s.tail⟩ prior links = .ok s := by
  induction links generalizing prior with
  | nil => exact absurd rfl hne
  | cons link links ih =>
    obtain ⟨mid, hmid, h⟩ := foldlM_cons_eq_ok.mp h
    refine bind_eq_ok.mpr ⟨mid, hmid, ?_⟩
    have hlength := foldlM_verifyHostchainLink_seqno h
    cases links with
    | nil =>
      cases h
      rw [if_pos rfl, if_pos rfl]
    | cons next rest =>
      have hlater : ¬ mid.seqno = s.seqno := by
        intro heq
        rw [heq, List.length_cons] at hlength
        omega
      rw [if_neg hlater]
      exact ih (by simp) h

/-! ## What an advance keeps -/

/-- The entries are in the order of their epochs, and the head's is the last one. -/
structure VerifiedMerkleRoot.Ordered (v : VerifiedMerkleRoot) : Prop where
  increasing : v.authenticatedRoots.Pairwise fun a b => a.epoch < b.epoch
  le_head : ∀ entry ∈ v.authenticatedRoots, entry.epoch.toNat ≤ v.epoch.toNat
  head : ⟨v.epoch, v.rootHash, some v.rootBytes⟩ ∈ v.authenticatedRoots

namespace VerifiedMerkleRoot.Ordered

variable {v : VerifiedMerkleRoot}

theorem nodup (h : v.Ordered) : (v.authenticatedRoots.map (·.epoch)).Nodup := by
  rw [List.nodup_iff_pairwise_ne, List.pairwise_map]
  exact h.increasing.imp fun hlt heq => by
    rw [heq] at hlt
    exact UInt64.lt_irrefl _ hlt

theorem eq_of_epoch (h : v.Ordered) {a b : AuthenticatedMerkleRoot}
    (ha : a ∈ v.authenticatedRoots) (hb : b ∈ v.authenticatedRoots) (heq : a.epoch = b.epoch) :
    a = b :=
  List.inj_on_of_nodup_map h.nodup ha hb heq

/-- The entries as a map from their epochs. -/
theorem getElem?_entries (h : v.Ordered) {entry : AuthenticatedMerkleRoot} :
    (insertEach (∅ : RootEntries)
      (v.authenticatedRoots.map fun root => (root.epoch, root)))[k]? = some entry ↔
      entry ∈ v.authenticatedRoots ∧ entry.epoch = k := by
  rw [getElem?_insertEach (by rw [List.map_map]; exact h.nodup)]
  constructor
  · rintro (hmem | ⟨-, hnone⟩)
    · obtain ⟨root, hroot, heq⟩ := List.mem_map.mp hmem
      cases heq
      exact ⟨hroot, rfl⟩
    · simp at hnone
  · rintro ⟨hmem, rfl⟩
    exact .inl (List.mem_map.mpr ⟨entry, hmem, rfl⟩)

theorem getLast (h : v.Ordered) : v.authenticatedRoots.getLast? =
    some ⟨v.epoch, v.rootHash, some v.rootBytes⟩ := by
  rcases List.eq_nil_or_concat' v.authenticatedRoots with hnil | ⟨front, last, hlast⟩
  · have hhead := h.head
    rw [hnil] at hhead
    cases hhead
  · rw [hlast, List.getLast?_concat, Option.some.injEq]
    refine h.eq_of_epoch (by simp [hlast]) h.head (UInt64.toNat_inj.mp ?_)
    have hle := h.le_head last (by simp [hlast])
    have hhead := h.head
    rw [hlast, List.mem_append, List.mem_singleton] at hhead
    rcases hhead with hfront | heq
    · have hincreasing := h.increasing
      rw [hlast, List.pairwise_append] at hincreasing
      have hlt := UInt64.lt_iff_toNat_lt.mp
        (hincreasing.2.2 _ hfront last (List.mem_singleton_self _))
      simp only at hlt ⊢
      omega
    · rw [← heq]

end VerifiedMerkleRoot.Ordered

/-- A map whose values know their keys lists them in the order of their epochs. -/
theorem sortedValues_increasing {m : RootEntries}
    (h : ∀ (k : UInt64) (entry : AuthenticatedMerkleRoot), m[k]? = some entry → entry.epoch = k) :
    (sortedValues m).Pairwise fun a b => a.epoch < b.epoch := by
  rw [sortedValues, List.pairwise_map]
  refine ExtTreeMap.ordered_keys_toList.imp_of_mem fun {a b} ha hb hlt => ?_
  rw [ExtTreeMap.mem_toList_iff_getElem?_eq_some] at ha hb
  rw [h _ _ ha, h _ _ hb]
  exact Std.compare_eq_lt.mp hlt

section

variable {latest : UInt64} {latestBytes : List UInt8} {roots : RootMap}
  {entries entries' : RootEntries}

/-- An entry that has its bytes stays, and one for whose epoch no bytes are known. -/
theorem mergeEntry_keep (h : mergeEntry latest latestBytes roots entries e = .ok entries')
    {stored : AuthenticatedMerkleRoot}
    (hstored : stored.rootBytes.isSome ∨ (k ≠ latest ∧ roots[k]? = none))
    (hk : entries[k]? = some stored) : entries'[k]? = some stored := by
  obtain ⟨rootBytes, hbytes, h⟩ := bind_eq_ok.mp h
  cases h
  rw [getElem?_insert_self_or]
  split
  · rename_i hkey
    subst hkey
    rw [hk, Option.some.injEq]
    simp only
    split
    · rename_i hnone
      obtain ⟨hne, hroot⟩ := hstored.resolve_left (by simp [Option.isNone_iff_eq_none.mp hnone])
      rw [entryBytes, if_neg hne, hroot] at hbytes
      cases hbytes
      rw [Option.isNone_iff_eq_none] at hnone
      cases stored
      cases hnone
      rfl
    · rfl
  · exact hk

/-- Entries know their epoch, and none is above the latest. -/
def Filed (latest : UInt64) (entries : RootEntries) : Prop :=
  ∀ (k : UInt64) (entry : AuthenticatedMerkleRoot), entries[k]? = some entry →
    entry.epoch = k ∧ k.toNat ≤ latest.toNat

theorem Filed.mergeEntry (hfiled : Filed latest entries) (he : e.1.toNat ≤ latest.toNat)
    (h : mergeEntry latest latestBytes roots entries e = .ok entries') : Filed latest entries' := by
  obtain ⟨rootBytes, -, h⟩ := bind_eq_ok.mp h
  cases h
  intro k entry hk
  rw [getElem?_insert_self_or] at hk
  split at hk
  · rename_i hkey
    subst hkey
    refine ⟨?_, he⟩
    rw [Option.some.injEq] at hk
    cases hold : entries[e.1]? with
    | none =>
      rw [hold] at hk
      rw [← hk]
    | some stored =>
      rw [hold] at hk
      simp only at hk
      split at hk <;> rw [← hk] <;> exact (hfiled _ _ hold).1
  · exact hfiled k entry hk

/-- The entry of the latest epoch, once the merge has passed it. -/
theorem mergeEntry_head
    (h : mergeEntry latest latestBytes roots entries (latest, hash) = .ok entries')
    (hk : entries[latest]? = none ∨ entries[latest]? = some ⟨latest, hash, some latestBytes⟩) :
    entries'[latest]? = some ⟨latest, hash, some latestBytes⟩ := by
  rcases hk with hnone | hsome
  · obtain ⟨rootBytes, hbytes, h⟩ := bind_eq_ok.mp h
    cases h
    rw [entryBytes, if_pos rfl] at hbytes
    cases hbytes
    rw [getElem?_insert_self_or, if_pos rfl]
    simp only [hnone]
  · exact mergeEntry_keep h (.inl rfl) hsome

theorem merge_head {hashes : RootHashes}
    (h : hashes.toList.foldlM (mergeEntry latest latestBytes roots) entries = .ok entries')
    (hnew : entries[latest]? = none) (hhash : hashes[latest]? = some latestHash) :
    entries'[latest]? = some ⟨latest, latestHash, some latestBytes⟩ := by
  obtain ⟨front, back, hsplit⟩ :=
    List.append_of_mem (ExtTreeMap.mem_toList_iff_getElem?_eq_some.mpr hhash)
  have hfront : latest ∉ front.map Prod.fst := by
    have hnodup := nodup_keys_toList hashes
    rw [hsplit, List.map_append, List.nodup_append] at hnodup
    exact fun hmem => hnodup.2.2 _ hmem latest (by simp) rfl
  rw [hsplit, foldlM_append_eq_ok] at h
  obtain ⟨mid, hmid, h⟩ := h
  obtain ⟨next, hnext, h⟩ := foldlM_cons_eq_ok.mp h
  -- the entries before it are of other epochs
  have hmidNone : mid[latest]? = none := by
    refine foldlM_invariant (P := fun m => m[latest]? = none) (fun e he b b' hb hstep => ?_)
      hnew hmid
    obtain ⟨rootBytes, -, hstep⟩ := bind_eq_ok.mp hstep
    cases hstep
    rw [getElem?_insert_self_or, if_neg, hb]
    exact fun heq => hfront (List.mem_map.mpr ⟨e, he, heq⟩)
  exact foldlM_invariant (P := fun m => m[latest]? = some ⟨latest, latestHash, some latestBytes⟩)
    (fun e _ b b' hb hstep => mergeEntry_keep hstep (.inl rfl) hb)
    (mergeEntry_head hnext (.inl hmidNone)) h

end

/-- The roots that an advance has at hand: the pin's, the latest, and those of the path. -/
theorem collectHistory_roots {pinnedRoot latest : MerkleRoot} {historical : HistoricalMerkleRoots}
    {roots : RootMap} {hashes : RootHashes} (hpath : SkipPath latest.epoch pinned.epoch rest)
    (h : collectHistory digest pinned pinnedRoot latest latestHash
      ⟨rest, SkipPath.hashEpochs latest.epoch pinned.epoch rest⟩ historical = .ok (roots, hashes))
    (hk : k.toNat < pinned.epoch.toNat) : roots[k]? = none := by
  obtain ⟨-, h⟩ := ite_error_eq_ok.mp h
  obtain ⟨⟨roots', hashes'⟩, hroots, h⟩ := bind_eq_ok.mp h
  obtain ⟨hashes'', -, h⟩ := bind_eq_ok.mp h
  cases h
  obtain ⟨-, rfl, -⟩ := insertRoots_eq_ok.mp hroots
  refine ExtTreeMap.getElem?_eq_none fun hmem => ?_
  rcases mem_insertEach_cases hmem with hzip | hfirst
  · obtain ⟨p, hp, rfl⟩ := List.mem_map.mp hzip
    have hbound := (hpath.bounds (List.mem_cons_of_mem _ (List.of_mem_zip hp).1)).1
    omega
  · have hlt := hpath.lt
    rcases mem_insertEach_cases hfirst with hpair | hempty
    · simp only [List.map_cons, List.map_nil, List.mem_cons, List.not_mem_nil, or_false] at hpair
      rcases hpair with rfl | rfl <;> omega
    · simp at hempty

/-- An advance to a later root keeps the order and the entries of the pin. -/
theorem VerifiedMerkleRoot.Ordered.connect (hpinned : pinned.Ordered)
    {pinnedRoot latest : MerkleRoot} {latestBytes historicalBytes : List UInt8}
    {advance : VerifiedMerkleAdvance} (hpath : SkipPath latest.epoch pinned.epoch rest)
    (h : connectLatest digest pinned pinnedRoot latest latestHash latestBytes historicalBytes =
      .ok advance) : advance.snapshot.Ordered ∧
      pinned.authenticatedRoots ⊆ advance.snapshot.authenticatedRoots ∧
      advance.snapshot.epoch = latest.epoch ∧ advance.snapshot.rootHash = latestHash ∧
      advance.snapshot.rootBytes = latestBytes ∧
      advance.snapshot.evidence = .skipPath [] pinned.epoch historicalBytes pinned.evidence := by
  rw [connectLatest, hpath.requirements_eq, ok_bind] at h
  obtain ⟨historical, -, h⟩ := bind_eq_ok.mp h
  obtain ⟨hshape, h⟩ := ite_error_eq_ok.mp h
  obtain ⟨⟨roots, hashes⟩, hcollect, h⟩ := bind_eq_ok.mp h
  obtain ⟨prior, -, h⟩ := bind_eq_ok.mp h
  obtain ⟨final, -, h⟩ := bind_eq_ok.mp h
  obtain ⟨-, h⟩ := ite_error_eq_ok.mp h
  obtain ⟨entries, hentries, h⟩ := bind_eq_ok.mp h
  cases h
  rw [not_or, not_not] at hshape
  have hcollected := collectHistory_sound hpath hshape.1 hcollect
  have hlt := hpath.lt
  have hknown : ∀ e ∈ hashes.toList, e.1.toNat ≤ latest.epoch.toNat := by
    intro e he
    have hlookup := ExtTreeMap.mem_toList_iff_getElem?_eq_some.mp he
    rcases hcollected.source _ _ hlookup with heq | hrest | hside | hown
    · rw [heq]
    · exact (hpath.rest_lt hrest).le
    · obtain ⟨-, s, hs, hpointer⟩ := SkipPath.mem_hashEpochs.mp hside
      exact (hpath.pointer_bounds hs hpointer).2.le
    · obtain ⟨entry, hentry, heq, -⟩ := authenticatedRootSet_cases hown
      have hle := hpinned.le_head entry hentry
      rw [heq] at hle
      omega
  have hstart : Filed latest.epoch
      (insertEach ∅ (pinned.authenticatedRoots.map fun root => (root.epoch, root))) := by
    intro k entry hk
    obtain ⟨hmem, rfl⟩ := hpinned.getElem?_entries.mp hk
    have hle := hpinned.le_head entry hmem
    exact ⟨rfl, by omega⟩
  have hfiled : Filed latest.epoch entries :=
    foldlM_invariant (fun e he b b' hb hstep => hb.mergeEntry (hknown e he) hstep) hstart hentries
  have hnew : (insertEach (∅ : RootEntries)
      (pinned.authenticatedRoots.map fun root => (root.epoch, root)))[latest.epoch]? = none := by
    rw [Option.eq_none_iff_forall_ne_some]
    intro entry hentry
    obtain ⟨hmem, heq⟩ := hpinned.getElem?_entries.mp hentry
    have hle := hpinned.le_head entry hmem
    rw [heq] at hle
    omega
  have hhead := merge_head hentries hnew hcollected.latest_hash
  have hkeep : ∀ entry ∈ pinned.authenticatedRoots, entries[entry.epoch]? = some entry := by
    intro entry hentry
    have hstart := hpinned.getElem?_entries.mpr ⟨hentry, rfl⟩
    refine foldlM_invariant (P := fun m => m[entry.epoch]? = some entry)
      (fun e _ b b' hb hstep => mergeEntry_keep hstep ?_ hb) hstart hentries
    -- the head has its bytes, and below it no root is at hand
    by_cases hepoch : entry.epoch = pinned.epoch
    · left
      rw [hpinned.eq_of_epoch hentry hpinned.head hepoch]
      rfl
    · right
      have hle := hpinned.le_head entry hentry
      have hne : entry.epoch.toNat ≠ pinned.epoch.toNat := fun heq =>
        hepoch (UInt64.toNat_inj.mp heq)
      refine ⟨?_, collectHistory_roots hpath hcollect (by omega)⟩
      intro heq
      rw [heq] at hle
      omega
  refine ⟨⟨sortedValues_increasing fun k entry hk => (hfiled k entry hk).1, ?_, ?_⟩, ?_, rfl, rfl,
    rfl, rfl⟩
  · intro entry hentry
    obtain ⟨k, hk⟩ := mem_sortedValues.mp hentry
    obtain ⟨rfl, hle⟩ := hfiled k entry hk
    exact hle
  · exact mem_sortedValues.mpr ⟨latest.epoch, hhead⟩
  · intro entry hentry
    exact mem_sortedValues.mpr ⟨entry.epoch, hkeep entry hentry⟩

/-! ## Restoration -/

/-- What an advance has checked, and whether it is to a later root. -/
theorem verifyMerkleAdvance_cases {latestBytes historicalBytes : List UInt8} {tail : HostchainTail}
    {advance : VerifiedMerkleAdvance}
    (h : verifyMerkleAdvance digest pinned latestBytes historicalBytes tail = .ok advance) :
    ∃ pinnedRoot latest, MerkleRoot.decode pinned.rootBytes = .ok pinnedRoot ∧
      pinnedRoot.epoch = pinned.epoch ∧ rootHash digest pinnedRoot = pinned.rootHash ∧
      MerkleRoot.decode latestBytes = .ok latest ∧ latest.hostchain = tail ∧ Hashable latest ∧
      ((latest.epoch = pinned.epoch ∧ rootHash digest latest = pinned.rootHash ∧
          advance.snapshot = pinned) ∨
        (pinned.epoch.toNat < latest.epoch.toNat ∧
          connectLatest digest pinned pinnedRoot latest (rootHash digest latest) latestBytes
            historicalBytes = .ok advance)) := by
  obtain ⟨pinnedRoot, hpinned, h⟩ := bind_eq_ok.mp h
  obtain ⟨pinnedHash, hhash, h⟩ := bind_eq_ok.mp h
  obtain ⟨hpin, h⟩ := ite_error_eq_ok.mp h
  obtain ⟨latest, hlatest, h⟩ := bind_eq_ok.mp h
  obtain ⟨hback, h⟩ := ite_error_eq_ok.mp h
  obtain ⟨_, htail, h⟩ := bind_eq_ok.mp h
  obtain ⟨latestHash, hlatestHash, h⟩ := bind_eq_ok.mp h
  obtain ⟨-, rfl⟩ := hashRoot_eq_ok.mp hhash
  obtain ⟨hhashable, rfl⟩ := hashRoot_eq_ok.mp hlatestHash
  rw [not_or, not_not, not_not] at hpin
  have htail : latest.hostchain = tail := by
    unfold verifyRootHostchain at htail
    split at htail
    · assumption
    · cases htail
  refine ⟨pinnedRoot, latest, protocol_eq_ok.mp hpinned, hpin.1, hpin.2, protocol_eq_ok.mp hlatest,
    htail, hhashable, ?_⟩
  rcases ite_eq_ok h with ⟨hsame, h⟩ | ⟨hlater, h⟩
  · obtain ⟨hfork, h⟩ := ite_error_eq_ok.mp h
    cases h
    exact .inl ⟨hsame, not_not.mp hfork, rfl⟩
  · refine .inr ⟨?_, h⟩
    rw [UInt64.lt_iff_toNat_lt] at hback
    have hne : latest.epoch.toNat ≠ pinned.epoch.toNat := fun heq =>
      hlater (UInt64.toNat_inj.mp heq)
    omega

section

variable {digest : Digest} {scheme : SignatureScheme} {parser : CertificateParser}

theorem restoreRoot_eq_ok {depth : Nat} {root : MerkleRoot} :
    restoreRoot digest scheme parser hostchain epoch hash bytes depth = .ok (root, chain) ↔
      depth ≤ maxEvidenceDepth ∧ MerkleRoot.decode bytes = .ok root ∧
      verifyHostchainAtTail digest scheme parser hostchain root.hostchain = .ok chain ∧
      root.epoch = epoch ∧ Hashable root ∧ rootHash digest root = hash := by
  simp only [restoreRoot, bind_eq_ok, protocol_eq_ok, ite_error_eq_ok, not_not, hashRoot_eq_ok,
    Except.ok.injEq, Prod.mk.injEq, gt_iff_lt, not_lt]
  constructor
  · rintro ⟨hdepth, _, hroot, _, hchain, hepoch, _, ⟨hhashable, rfl⟩, hhash, rfl, rfl⟩
    exact ⟨hdepth, hroot, hchain, hepoch, hhashable, hhash⟩
  · rintro ⟨hdepth, hroot, hchain, hepoch, hhashable, hhash⟩
    exact ⟨hdepth, root, hroot, chain, hchain, hepoch, _, ⟨hhashable, rfl⟩, hhash, rfl, rfl⟩

theorem restoreSignedRoot_eq_ok {rootBytes : List UInt8} :
    restoreSignedRoot digest scheme chain signedBytes rootBytes = .ok () ↔
      ∃ signed, SignedBlob.decode signedBytes = .ok signed ∧ signed.inner = rootBytes ∧
        verifyMerkleSigner digest scheme chain signed = .ok () := by
  simp only [restoreSignedRoot, bind_eq_ok, protocol_eq_ok, ite_error_eq_ok, not_not]

variable {roots : List AuthenticatedMerkleRoot} {v : VerifiedMerkleRoot}

theorem restoreMerkleEvidence_skipPath {signedRoot historical : List UInt8} {anchorEpoch : UInt64}
    {prior : MerkleRootEvidence} {depth : Nat} {out : VerifiedMerkleRoot} :
    restoreMerkleEvidence digest scheme parser roots hostchain
        (.skipPath signedRoot anchorEpoch historical prior) epoch hash bytes depth = .ok out ↔
      ∃ root chain,
        restoreRoot digest scheme parser hostchain epoch hash bytes depth = .ok (root, chain) ∧
        ¬ (epoch ≤ anchorEpoch ∨ signedRoot.isEmpty) ∧
        restoreSignedRoot digest scheme chain signedRoot bytes = .ok () ∧
        ∃ anchor anchorBytes, storedRoot roots anchorEpoch = .ok (anchor, anchorBytes) ∧
        ∃ restored, restoreMerkleEvidence digest scheme parser roots hostchain prior anchor.epoch
          anchor.rootHash anchorBytes (depth + 1) = .ok restored ∧
        ∃ advance, verifyMerkleAdvance digest restored bytes historical root.hostchain =
            .ok advance ∧
          advance.snapshot.epoch = epoch ∧ advance.snapshot.rootHash = hash ∧
          advance.snapshot.withSignedRoot signedRoot = out := by
  conv_lhs => rw [restoreMerkleEvidence]
  simp only [bind_eq_ok, ite_error_eq_ok, Prod.exists, not_or, not_not, Except.ok.injEq,
    Unique.exists_iff, PUnit.default_eq_unit, and_assoc]

/-- The list holds the entries of a root. -/
def Holds (roots : List AuthenticatedMerkleRoot) (v : VerifiedMerkleRoot) : Prop :=
  ∀ entry ∈ v.authenticatedRoots, roots.find? (·.epoch = entry.epoch) = some entry

theorem Holds.of_perm (hv : v.Ordered) (h : roots.Perm v.authenticatedRoots) : Holds roots v := by
  intro entry hentry
  cases hfind : roots.find? (·.epoch = entry.epoch) with
  | none =>
    have hnone := List.find?_eq_none.mp hfind entry (h.mem_iff.mpr hentry)
    simp at hnone
  | some found =>
    have hepoch : found.epoch = entry.epoch := by simpa using List.find?_some hfind
    have hfound := h.mem_iff.mp (List.mem_of_find?_eq_some hfind)
    rw [hv.eq_of_epoch hfound hentry hepoch]

theorem Holds.storedRoot (hv : v.Ordered) (h : Holds roots v) :
    storedRoot roots v.epoch = .ok (⟨v.epoch, v.rootHash, some v.rootBytes⟩, v.rootBytes) := by
  have hfind := h _ hv.head
  refine bind_of_ok (okOr_eq_ok.mpr hfind) ?_
  exact bind_eq_ok.mpr ⟨v.rootBytes, rfl, rfl⟩

/-- Sorting by epoch undoes any order of the entries. -/
theorem mergeSort_of_perm (hv : v.Ordered) (h : roots.Perm v.authenticatedRoots) :
    roots.mergeSort (fun a b => a.epoch ≤ b.epoch) = v.authenticatedRoots := by
  have hsorted : (roots.mergeSort fun a b => decide (a.epoch ≤ b.epoch)).Pairwise fun a b =>
      decide (a.epoch ≤ b.epoch) = true := by
    refine List.pairwise_mergeSort (fun a b c hab hbc => ?_) (fun a b => ?_) roots
    · simp only [decide_eq_true_eq] at hab hbc ⊢
      exact UInt64.le_trans hab hbc
    · simpa using UInt64.le_total a.epoch b.epoch
  have hperm := (List.mergeSort_perm roots fun a b => decide (a.epoch ≤ b.epoch)).trans h
  refine hperm.eq_of_pairwise (fun a b ha hb hab hba => ?_) hsorted
    (hv.increasing.imp fun hlt => decide_eq_true (UInt64.le_of_lt hlt))
  refine hv.eq_of_epoch (hperm.mem_iff.mp ha) hb ?_
  exact UInt64.le_antisymm (of_decide_eq_true hab) (of_decide_eq_true hba)

/-- The evidence of a root gives the root back, with the links of its host chain and any after
    them, and with any list that holds its entries. -/
def Restorable (digest : Digest) (scheme : SignatureScheme) (parser : CertificateParser)
    (links : List HostchainLink) (steps : Nat) (v : VerifiedMerkleRoot) : Prop :=
  ∀ roots, Holds roots v → ∀ more depth, depth + steps ≤ maxEvidenceDepth →
    restoreMerkleEvidence digest scheme parser roots (links ++ more) v.evidence v.epoch v.rootHash
      v.rootBytes depth = .ok v

theorem Restorable.mono {steps : Nat} (h : Restorable digest scheme parser links steps v)
    (more : List HostchainLink) :
    Restorable digest scheme parser (links ++ more) (steps + 1) v := by
  intro roots hroots others depth hdepth
  rw [List.append_assoc]
  exact h roots hroots _ depth (by omega)

theorem withSignedRoot_withSignedRoot (evidence : MerkleRootEvidence) (a b : List UInt8) :
    (evidence.withSignedRoot a).withSignedRoot b = evidence.withSignedRoot b := by
  cases evidence <;> rfl

theorem not_isEmpty_of_decode {blob : SignedBlob} (h : SignedBlob.decode bytes = .ok blob) :
    ¬ bytes.isEmpty := by
  obtain ⟨-, hwire⟩ := SignedBlob.decode_eq_ok.mp h
  have hpos := wire_length_pos blob.value
  rw [List.isEmpty_iff, ← List.length_eq_zero_iff, hwire]
  omega

/-- The head of a skip path may be signed once more. -/
theorem Restorable.resigned {steps : Nat} (h : Restorable digest scheme parser links steps v)
    {root : MerkleRoot} (hroot : MerkleRoot.decode v.rootBytes = .ok root)
    (hchain : verifyHostchainAtTail digest scheme parser links root.hostchain = .ok chain)
    (hsigned : restoreSignedRoot digest scheme chain signedBytes v.rootBytes = .ok ()) :
    Restorable digest scheme parser links steps (v.withSignedRoot signedBytes) := by
  intro roots hroots more depth hdepth
  have hrestored := h roots hroots more depth hdepth
  obtain ⟨epoch, hash, bytes, evidence, entries⟩ := v
  cases evidence with
  | signedBootstrap signed => exact hrestored
  | localCheckpoint signed => exact hrestored
  | signedRefresh signed priorEpoch prior => exact hrestored
  | skipPath signed anchorEpoch historical prior =>
    obtain ⟨root', chain', hroot', hguard, -, hrest⟩ :=
      restoreMerkleEvidence_skipPath.mp hrestored
    obtain ⟨anchor, anchorBytes, hanchor, restored, hprior, advance, hadvance, hepoch, hhash,
      hout⟩ := hrest
    -- the same level, with the other signature over the same root
    obtain ⟨-, hdecode, hchain', -⟩ := restoreRoot_eq_ok.mp hroot'
    obtain rfl : root' = root := Except.ok.inj (hdecode.symm.trans hroot)
    obtain rfl : chain' = chain :=
      Except.ok.inj (hchain'.symm.trans (verifyHostchainAtTail_append hchain more))
    obtain ⟨blob, hblob, -⟩ := restoreSignedRoot_eq_ok.mp hsigned
    refine restoreMerkleEvidence_skipPath.mpr ⟨root', chain', hroot', ?_, hsigned, anchor,
      anchorBytes, hanchor, restored, hprior, advance, hadvance, hepoch, hhash, ?_⟩
    · rw [not_or] at hguard ⊢
      exact ⟨hguard.1, not_isEmpty_of_decode hblob⟩
    · have hsame := congrArg (·.withSignedRoot signedBytes) hout
      simp only [VerifiedMerkleRoot.withSignedRoot, withSignedRoot_withSignedRoot] at hsame
      exact hsame

/-- The step: a signed advance from a root that restores leads to one that restores. -/
theorem Restorable.advance {links more : List HostchainLink} {steps : Nat}
    {v : VerifiedMerkleRoot} (hv : v.Ordered) (h : Restorable digest scheme parser links steps v)
    {signedBytes historical : List UInt8} {signed : SignedBlob} {trusted : HostchainTail}
    {chain : HostchainState} {advance : VerifiedMerkleAdvance}
    (hsigned : SignedBlob.decode signedBytes = .ok signed)
    (hchain : verifyHostchainAtTail digest scheme parser (links ++ more) trusted = .ok chain)
    (hsigner : verifyMerkleSigner digest scheme chain signed = .ok ())
    (hadvance : verifyMerkleAdvance digest v signed.inner historical trusted = .ok advance)
    (hfree : CollisionFree digest
      [hashInput merkleRootTypeId v.rootBytes, hashInput merkleRootTypeId signed.inner]) :
    (advance.snapshot.withSignedRoot signedBytes).Ordered ∧
      Restorable digest scheme parser (links ++ more) (steps + 1)
        (advance.snapshot.withSignedRoot signedBytes) ∧
      advance.snapshot.rootBytes = signed.inner := by
  obtain ⟨pinnedRoot, latest, hpinned, hpinnedEpoch, hpinnedHash, hlatest, rfl, hhashable,
    hcases⟩ :=
    verifyMerkleAdvance_cases hadvance
  obtain ⟨-, -, hlatestBytes⟩ := MerkleRoot.decode_eq_ok.mp hlatest
  obtain ⟨hpinnedPos, -, hpinnedBytes⟩ := MerkleRoot.decode_eq_ok.mp hpinned
  rcases hcases with ⟨-, hhash, hsame⟩ | ⟨hlt, hconnect⟩
  · -- the head stays, and only its signature may be another one
    have hbytes : v.rootBytes = signed.inner := by
      have hold : hashInput merkleRootTypeId v.rootBytes ∈
        [hashInput merkleRootTypeId v.rootBytes, hashInput merkleRootTypeId signed.inner] := by simp
      have hnew : hashInput merkleRootTypeId signed.inner ∈
        [hashInput merkleRootTypeId v.rootBytes, hashInput merkleRootTypeId signed.inner] := by simp
      refine hfree.object_eq hold hnew ?_
      rw [hpinnedBytes, hlatestBytes]
      exact hpinnedHash.trans hhash.symm
    have hroot : MerkleRoot.decode v.rootBytes = .ok latest := by rw [hbytes, hlatest]
    rw [hsame]
    refine ⟨⟨hv.increasing, hv.le_head, hv.head⟩, (h.mono more).resigned hroot hchain ?_, hbytes⟩
    exact restoreSignedRoot_eq_ok.mpr ⟨signed, hsigned, hbytes.symm, hsigner⟩
  · have hpos : 0 < v.epoch.toNat := by
      rw [← hpinnedEpoch]
      exact Nat.pos_of_ne_zero fun hzero => hpinnedPos (UInt64.toNat_inj.mp hzero)
    obtain ⟨rest, hpath⟩ := exists_skipPath hpos hlt
    obtain ⟨hordered, hsubset, hepoch, hhash, hbytes, hevidence⟩ := hv.connect hpath hconnect
    refine ⟨⟨hordered.increasing, hordered.le_head, hordered.head⟩, ?_, hbytes⟩
    intro roots hroots others depth hdepth
    have hold : Holds roots v := fun entry hentry => hroots entry (hsubset hentry)
    have hanchor := h roots hold (more ++ others) (depth + 1) (by omega)
    rw [← List.append_assoc] at hanchor
    have hrestored : (advance.snapshot.withSignedRoot signedBytes).evidence =
        .skipPath signedBytes v.epoch historical v.evidence := by
      rw [VerifiedMerkleRoot.withSignedRoot, hevidence]
      rfl
    rw [hrestored]
    refine restoreMerkleEvidence_skipPath.mpr ⟨latest, chain, ?_, ?_, ?_, _, _,
      hold.storedRoot hv, v, hanchor, advance, ?_, rfl, rfl, rfl⟩
    · refine restoreRoot_eq_ok.mpr ⟨by omega, ?_, verifyHostchainAtTail_append hchain others,
        hepoch.symm, hhashable, hhash.symm⟩
      exact (congrArg MerkleRoot.decode hbytes).trans hlatest
    · rw [not_or]
      refine ⟨fun hle => ?_, not_isEmpty_of_decode hsigned⟩
      have hle : advance.snapshot.epoch ≤ v.epoch := hle
      rw [hepoch, UInt64.le_iff_toNat_le] at hle
      omega
    · exact restoreSignedRoot_eq_ok.mpr ⟨signed, hsigned, hbytes.symm, hsigner⟩
    · have hbytes : (advance.snapshot.withSignedRoot signedBytes).rootBytes = signed.inner := hbytes
      rw [hbytes]
      exact hadvance

/-- The base: the root of a probe, with the chain of the probe. -/
theorem restorable_bootstrap {lookupName probeBytes : List UInt8} {host : VerifiedPublicHost}
    (h : verifyPublicHost digest scheme parser lookupName probeBytes = .ok host) :
    host.snapshot.merkleRoot.Ordered ∧ ∃ links,
      (∃ chain, verifyHostchain digest scheme parser links = .ok chain) ∧
      (∀ read, decodeHostchain host.snapshot.chainBytes = .ok read → read = links) ∧
      Restorable digest scheme parser links 0 host.snapshot.merkleRoot := by
  obtain ⟨probe, hprobe, h⟩ := bind_eq_ok.mp h
  obtain ⟨hsome, h⟩ := ite_error_eq_ok.mp h
  obtain ⟨chain, hchain, h⟩ := bind_eq_ok.mp h
  obtain ⟨id, -, h⟩ := bind_eq_ok.mp h
  obtain ⟨_, -, h⟩ := bind_eq_ok.mp h
  obtain ⟨publicZone, -, h⟩ := bind_eq_ok.mp h
  obtain ⟨_, hsigner, h⟩ := bind_eq_ok.mp h
  obtain ⟨root, hroot, h⟩ := bind_eq_ok.mp h
  obtain ⟨_, hbinding, h⟩ := bind_eq_ok.mp h
  obtain ⟨hash, hhash, h⟩ := bind_eq_ok.mp h
  obtain ⟨services, -, h⟩ := bind_eq_ok.mp h
  obtain ⟨canonicalName, -, h⟩ := bind_eq_ok.mp h
  obtain ⟨chainBytes, hchainBytes, h⟩ := bind_eq_ok.mp h
  obtain ⟨publicZoneBytes, -, h⟩ := bind_eq_ok.mp h
  obtain ⟨signedRoot, hsignedRoot, h⟩ := bind_eq_ok.mp h
  cases h
  obtain ⟨hhashable, rfl⟩ := hashRoot_eq_ok.mp hhash
  have htail : root.hostchain = ⟨chain.seqno, chain.tail⟩ := by
    obtain ⟨hbound, -⟩ := ite_error_eq_ok.mp hbinding
    rw [not_or, not_not, not_not] at hbound
    rw [← hbound.1, ← hbound.2]
  have hwhole : verifyHostchainAtTail digest scheme parser probe.hostchain root.hostchain =
      .ok chain := by
    rw [htail]
    refine hostchainAtTailLoop_whole ?_ hchain
    exact fun hnil => hsome (by rw [hnil]; rfl)
  have hsigned : SignedBlob.decode signedRoot = .ok probe.merkleRoot := by
    have hcod := ProbeResponse.decode_codable (protocol_eq_ok.mp hprobe)
    refine SignedBlob.decode_eq_ok.mpr ⟨hcod, ?_⟩
    have hencoded := (encodeValue_codable hcod).symm.trans (protocol_eq_ok.mp hsignedRoot)
    exact (Except.ok.inj hencoded).symm
  refine ⟨⟨List.pairwise_singleton _ _, ?_, List.mem_singleton_self _⟩, probe.hostchain,
    ⟨chain, hchain⟩,
      fun read hread => decodeHostchain_encoded (protocol_eq_ok.mp hchainBytes) hread, ?_⟩
  · intro entry hentry
    rw [List.mem_singleton.mp hentry]
  · intro roots _ more depth hdepth
    have hlevel : restoreRoot digest scheme parser (probe.hostchain ++ more) root.epoch
        (rootHash digest root) probe.merkleRoot.inner depth = .ok (root, chain) :=
      restoreRoot_eq_ok.mpr ⟨by omega, protocol_eq_ok.mp hroot,
        verifyHostchainAtTail_append hwhole more, rfl, hhashable, rfl⟩
    rw [restoreMerkleEvidence, hlevel, ok_bind]
    refine bind_eq_ok.mpr ⟨(), ?_, rfl⟩
    exact restoreSignedRoot_eq_ok.mpr ⟨probe.merkleRoot, hsigned, rfl, hsigner⟩

/-! ## Runs -/

/-- What a client is given for a signed advance. -/
structure AnchorStep where
  signedLatest : List UInt8
  historical : List UInt8
  hostchain : List UInt8
  trusted : HostchainTail

def AnchorStep.take (digest : Digest) (scheme : SignatureScheme) (parser : CertificateParser)
    (v : VerifiedMerkleRoot) (step : AnchorStep) : Except Error VerifiedMerkleRoot := do
  let advance ← verifySignedMerkleAdvance digest scheme parser v step.signedLatest step.historical
    step.hostchain step.trusted
  .ok advance.snapshot

/-- Each step from the snapshot of the one before. -/
def advanceAll (digest : Digest) (scheme : SignatureScheme) (parser : CertificateParser)
    (v : VerifiedMerkleRoot) (steps : List AnchorStep) : Except Error VerifiedMerkleRoot :=
  steps.foldlM (AnchorStep.take digest scheme parser) v

/-- The later bytes hold the links of the earlier ones, and maybe more. -/
def ExtendsHostchain (earlier later : List UInt8) : Prop :=
  ∃ links more, decodeHostchain earlier = .ok links ∧ decodeHostchain later = .ok (links ++ more)

/-- The strings that are hashed for the roots of a run. -/
def anchorInputs (v : VerifiedMerkleRoot) (steps : List AnchorStep) : List (List UInt8) :=
  hashInput merkleRootTypeId v.rootBytes :: steps.flatMap fun step =>
    match SignedBlob.decode step.signedLatest with
    | .ok signed => [hashInput merkleRootTypeId signed.inner]
    | .error _ => []

theorem anchorInputs_cons {step : AnchorStep} {signed : SignedBlob}
    (hsigned : SignedBlob.decode step.signedLatest = .ok signed)
    (hbytes : v'.rootBytes = signed.inner) : anchorInputs v (step :: steps) =
      hashInput merkleRootTypeId v.rootBytes :: anchorInputs v' steps := by
  rw [anchorInputs, anchorInputs, List.flatMap_cons, hsigned, hbytes]
  rfl

theorem restorable_run {n : Nat} (hv : v.Ordered)
    (hlinks : ∀ read, decodeHostchain bytes = .ok read → read = links)
    (h : Restorable digest scheme parser links n v)
    (hsteps : advanceAll digest scheme parser v steps = .ok v')
    (hextends : (bytes :: steps.map (·.hostchain)).IsChain ExtendsHostchain)
    (hfree : CollisionFree digest (anchorInputs v steps)) : v'.Ordered ∧ ∃ links',
      (∀ read, decodeHostchain ((steps.map (·.hostchain)).getLastD bytes) = .ok read →
        read = links') ∧
      Restorable digest scheme parser links' (n + steps.length) v' := by
  induction steps generalizing v n bytes links with
  | nil =>
    cases hsteps
    exact ⟨hv, links, hlinks, h⟩
  | cons step steps ih =>
    obtain ⟨mid, hmid, hrest⟩ := foldlM_cons_eq_ok.mp hsteps
    obtain ⟨advance, hadvance, hmid⟩ := bind_eq_ok.mp hmid
    obtain ⟨signed, hsigned, hadvance⟩ := bind_eq_ok.mp hadvance
    obtain ⟨read, hread, hadvance⟩ := bind_eq_ok.mp hadvance
    obtain ⟨chain, hchain, hadvance⟩ := bind_eq_ok.mp hadvance
    obtain ⟨_, hsigner, hadvance⟩ := bind_eq_ok.mp hadvance
    obtain ⟨advanced, hadvanced, hout⟩ := bind_eq_ok.mp hadvance
    cases hout
    cases hmid
    rw [protocol_eq_ok] at hsigned hread
    rw [List.map_cons, List.isChain_cons_cons] at hextends
    obtain ⟨⟨first, more, hfirst, hlater⟩, hextends⟩ := hextends
    obtain rfl := hlinks first hfirst
    obtain rfl : first ++ more = read := Except.ok.inj (hlater.symm.trans hread)
    have hpair : [hashInput merkleRootTypeId v.rootBytes,
        hashInput merkleRootTypeId signed.inner] ⊆ anchorInputs v (step :: steps) := by
      rw [anchorInputs, List.flatMap_cons, hsigned]
      simp
    obtain ⟨hordered, hrestorable, hbytes⟩ :=
      h.advance hv hsigned hchain hsigner hadvanced (hfree.mono hpair)
    have hnext : CollisionFree digest
        (anchorInputs (advanced.snapshot.withSignedRoot step.signedLatest) steps) := by
      rw [anchorInputs_cons hsigned hbytes] at hfree
      exact hfree.mono (List.subset_cons_self ..)
    have hresult := ih hordered (fun read hread => Except.ok.inj (hread.symm.trans hlater))
      hrestorable hrest hextends hnext
    rw [List.length_cons, Nat.add_comm steps.length, ← Nat.add_assoc]
    rwa [List.map_cons, List.getLastD_cons]

end

/-- Stored anchors restore exactly. A root reached from a probe by at most 4096 signed advances,
    each with host chain bytes that extend the ones before, has its entries in the order of their
    epochs, the head's last; and its own parts, the entries in any order, give it back with the last
    host chain bytes exactly when these bytes are an accepted host chain. -/
theorem restoreMerkleAnchor_exact {digest : Digest} {scheme : SignatureScheme}
    {parser : CertificateParser} {lookupName probeBytes : List UInt8} {host : VerifiedPublicHost}
    {steps : List AnchorStep} {v : VerifiedMerkleRoot}
    (hprobe : verifyPublicHost digest scheme parser lookupName probeBytes = .ok host)
    (hsteps : advanceAll digest scheme parser host.snapshot.merkleRoot steps = .ok v)
    (hcount : steps.length ≤ 4096)
    (hextends : (host.snapshot.chainBytes :: steps.map (·.hostchain)).IsChain ExtendsHostchain)
    (hfree : CollisionFree digest (anchorInputs host.snapshot.merkleRoot steps)) :
    v.authenticatedRoots.Pairwise (fun a b => a.epoch < b.epoch) ∧
    v.authenticatedRoots.getLast?.map (·.epoch) = some v.epoch ∧
    ∀ roots : List AuthenticatedMerkleRoot, roots.Perm v.authenticatedRoots →
      (restoreMerkleAnchor digest scheme parser v.epoch v.rootHash v.rootBytes v.evidence roots
          ((steps.map (·.hostchain)).getLastD host.snapshot.chainBytes) = .ok v ↔
        ∃ links chain,
          decodeHostchain ((steps.map (·.hostchain)).getLastD host.snapshot.chainBytes) =
            .ok links ∧
          verifyHostchain digest scheme parser links = .ok chain) := by
  obtain ⟨hstart, links, -, hlinks, hrestorable⟩ := restorable_bootstrap hprobe
  obtain ⟨hordered, last, hlast, hrestores⟩ :=
    restorable_run hstart hlinks hrestorable hsteps hextends hfree
  refine ⟨hordered.increasing, by rw [hordered.getLast]; rfl, fun roots hperm => ?_⟩
  generalize (steps.map (·.hostchain)).getLastD host.snapshot.chainBytes = bytes at hlast ⊢
  constructor
  · intro h
    obtain ⟨read, hread, h⟩ := bind_eq_ok.mp h
    obtain ⟨chain, hchain, -⟩ := bind_eq_ok.mp h
    exact ⟨read, chain, protocol_eq_ok.mp hread, hchain⟩
  · rintro ⟨read, chain, hread, hchain⟩
    obtain rfl := hlast read hread
    have hevidence := hrestores roots (.of_perm hordered hperm) [] 0 (by
      rw [Nat.zero_add, Nat.zero_add]
      exact hcount)
    rw [List.append_nil] at hevidence
    refine bind_eq_ok.mpr ⟨read, protocol_eq_ok.mpr hread, bind_eq_ok.mpr ⟨chain, hchain, ?_⟩⟩
    refine bind_eq_ok.mpr ⟨v, hevidence, ite_error_eq_ok.mpr ⟨?_, rfl⟩⟩
    rw [not_not]
    exact mergeSort_of_perm hordered hperm

end

/-! ## Samples

A probe gives the root of epoch 1. One client advances to epoch 2; another one takes the same root
again, with host chain bytes that go on with a link that is not accepted. -/

namespace AnchorSample

open LinkSample (key signature)
open Sample (scheme)
open HostchainSample (parser genesis)

abbrev digest : Digest := Sha512.hash256

def root (epoch : UInt64) (backPointers : Hash) : MerkleRoot :=
  ⟨epoch, 0, backPointers, key 0, ⟨1, hostchainLinkHash digest genesis⟩, []⟩

def first : MerkleRoot := root 1 (key 0)

def second : MerkleRoot := root 2 (pointersHash digest [(1, rootHash digest first)])

def signed (root : MerkleRoot) : SignedBlob := ⟨root.bytes, signature⟩

def zone : SignedBlob :=
  ⟨wire (.array [.unsigned 0, .array (List.replicate 5 (.text [0x68]))]), signature⟩

def hostchainBytes (links : List HostchainLink) : List UInt8 :=
  wire (.array (links.map HostchainLink.toValue))

def probeBytes : List UInt8 :=
  wire (.array [(signed first).value, zone.value, .array [genesis.toValue]])

def advance : AnchorStep :=
  ⟨wire (signed second).value, wire (.array [.null, .null]), hostchainBytes [genesis],
    second.hostchain⟩

def again : AnchorStep :=
  ⟨wire (signed first).value, [], hostchainBytes [genesis, genesis], first.hostchain⟩

/-- The probe, and the two clients. -/
def run : Except Error (VerifiedPublicHost × VerifiedMerkleRoot × VerifiedMerkleRoot) := do
  let host ← verifyPublicHost digest scheme parser [] probeBytes
  let v ← advanceAll digest scheme parser host.snapshot.merkleRoot [advance]
  let w ← advanceAll digest scheme parser host.snapshot.merkleRoot [again]
  .ok (host, v, w)

theorem decodeHostchain_wire (h : Codable (.array (links.map HostchainLink.toValue))) :
    decodeHostchain (hostchainBytes links) = .ok links := by
  refine bind_of_ok (decodeValue_eq_ok.mpr ⟨h, rfl⟩) (list_eq_ok.mpr (.inr ⟨_, rfl, ?_⟩))
  rw [mapM_eq_ok_iff, List.forall₂_map_left_iff]
  exact List.forall₂_same.mpr fun link _ => link.ofValue_toValue

theorem run_ok : ∃ host v w,
    verifyPublicHost digest scheme parser [] probeBytes = .ok host ∧
    advanceAll digest scheme parser host.snapshot.merkleRoot [advance] = .ok v ∧
    advanceAll digest scheme parser host.snapshot.merkleRoot [again] = .ok w ∧
    host.snapshot.chainBytes = hostchainBytes [genesis] ∧ v.epoch = 2 ∧
    host.snapshot.merkleRoot.rootBytes = first.bytes := by
  have hrun : (run.toOption.any fun (host, v, _) =>
      host.snapshot.chainBytes == hostchainBytes [genesis] && v.epoch == 2 &&
      host.snapshot.merkleRoot.rootBytes == first.bytes) = true := by decide +kernel
  obtain ⟨⟨host, v, w⟩, h, hrun⟩ := exists_of_toOption_any hrun
  simp only [Bool.and_eq_true, beq_iff_eq] at hrun
  obtain ⟨host', hhost, h⟩ := bind_eq_ok.mp h
  obtain ⟨v', hv, h⟩ := bind_eq_ok.mp h
  obtain ⟨w', hw, h⟩ := bind_eq_ok.mp h
  cases h
  exact ⟨host, v, w, hhost, hv, hw, hrun.1.1, hrun.1.2, hrun.2⟩

theorem extends_genesis (more : List HostchainLink)
    (h : Codable (.array (([genesis] ++ more).map HostchainLink.toValue))) :
    ExtendsHostchain (hostchainBytes [genesis]) (hostchainBytes ([genesis] ++ more)) :=
  ⟨[genesis], more, decodeHostchain_wire (by decide +kernel), decodeHostchain_wire h⟩

/-- The first link is no second one. -/
theorem verifyHostchain_genesis_twice (s : HostchainState) :
    verifyHostchain digest scheme parser [genesis, genesis] ≠ .ok s := by
  intro h
  obtain ⟨chain, hlinks, hdiscipline, -⟩ := verifyHostchain_follows h
  obtain ⟨⟨link₁, change₁⟩, rest, rfl, rfl, hrest⟩ := List.map_eq_cons_iff.mp hlinks
  obtain ⟨⟨link₂, change₂⟩, rest, rfl, hlink, -⟩ := List.map_eq_cons_iff.mp hrest
  cases hlink
  have hfirst := hdiscipline [] _ change₁ _ rfl
  have hsecond := hdiscipline [_] _ change₂ _ rfl
  obtain rfl := Except.ok.inj (hfirst.decoded.symm.trans hsecond.decoded)
  exact absurd (hfirst.seqno.symm.trans hsecond.seqno) (by simp)

end AnchorSample

open Sample (scheme)
open HostchainSample (parser genesis)
open AnchorSample

/-- The advance does not look at links after the tail of the root; restoration does. -/
theorem restoreMerkleAnchor_rejects_later_link : ∃ host v error,
    verifyPublicHost digest scheme parser [] probeBytes = .ok host ∧
    advanceAll digest scheme parser host.snapshot.merkleRoot [again] = .ok v ∧
    ExtendsHostchain host.snapshot.chainBytes again.hostchain ∧
    restoreMerkleAnchor digest scheme parser v.epoch v.rootHash v.rootBytes v.evidence
      v.authenticatedRoots again.hostchain = .error error := by
  obtain ⟨host, -, v, hhost, -, hv, hchain, -⟩ := run_ok
  have hextends := extends_genesis [genesis] (by decide +kernel)
  rw [← hchain] at hextends
  have hdecode : decodeHostchain again.hostchain = .ok [genesis, genesis] :=
    decodeHostchain_wire (by decide +kernel)
  cases hverify : verifyHostchain digest scheme parser [genesis, genesis] with
  | ok s => exact absurd hverify (verifyHostchain_genesis_twice s)
  | error error =>
    refine ⟨host, v, error, hhost, hv, hextends, ?_⟩
    rw [restoreMerkleAnchor, hdecode]
    simp only [protocol, Except.mapError, ok_bind, hverify, error_bind]

theorem restoreMerkleAnchor_exact_advance : ∃ host v,
    verifyPublicHost digest scheme parser [] probeBytes = .ok host ∧
    advanceAll digest scheme parser host.snapshot.merkleRoot [advance] = .ok v ∧ v.epoch = 2 ∧
    restoreMerkleAnchor digest scheme parser v.epoch v.rootHash v.rootBytes v.evidence
      v.authenticatedRoots advance.hostchain = .ok v := by
  obtain ⟨host, v, -, hhost, hv, -, hchain, hepoch, hbytes⟩ := run_ok
  have hextends : (host.snapshot.chainBytes :: [advance].map (·.hostchain)).IsChain
      ExtendsHostchain := by
    rw [hchain]
    exact .cons_cons (extends_genesis [] (by decide +kernel)) (.singleton _)
  have hsigned : SignedBlob.decode advance.signedLatest = .ok (signed second) :=
    SignedBlob.decode_eq_ok.mpr ⟨by decide +kernel, rfl⟩
  have hfree : CollisionFree digest (anchorInputs host.snapshot.merkleRoot [advance]) := by
    rw [anchorInputs, hbytes, List.flatMap_cons, hsigned]
    decide +kernel
  refine ⟨host, v, hhost, hv, hepoch, ?_⟩
  refine ((restoreMerkleAnchor_exact hhost hv (by decide) hextends hfree).2.2 _ (.refl _)).mpr ?_
  obtain ⟨-, links, ⟨chain, hverified⟩, hlinks, -⟩ := restorable_bootstrap hhost
  have hdecode : decodeHostchain advance.hostchain = .ok [genesis] :=
    decodeHostchain_wire (by decide +kernel)
  obtain rfl : [genesis] = links := hlinks _ (by rw [hchain]; exact hdecode)
  exact ⟨_, chain, hdecode, hverified⟩

end Foks.Verify
