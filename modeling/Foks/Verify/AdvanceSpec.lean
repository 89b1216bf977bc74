/-
  The steps of the advance, one lemma each.

  What a successful step has checked and what it leaves: filling the two maps, reading the
  pointers of an epoch, and the checks in front of the walk.
-/
import Foks.Verify.RootHistory

namespace Foks.Verify

open Foks.Lib Foks.Crypto
open Foks.Proto (HostchainTail MerkleRoot)

/-! ## Filling the map -/

theorem insertRoots_eq_ok {digest : Digest} {es : List (UInt64 × MerkleRoot)}
    {roots roots' : RootMap} {hashes hashes' : RootHashes} :
    insertRoots digest es roots hashes = .ok (roots', hashes') ↔
      (∀ p ∈ es, p.2.epoch = p.1 ∧ Hashable p.2) ∧ roots' = insertEach roots es ∧
        hashes' = insertEach hashes (es.map fun p => (p.1, rootHash digest p.2)) := by
  induction es generalizing roots hashes with
  | nil => simp [insertRoots, eq_comm]
  | cons p es ih =>
    obtain ⟨epoch, root⟩ := p
    rw [insertRoots, ite_error_eq_ok, bind_eq_ok]
    constructor
    · rintro ⟨hepoch, h, hh, hrest⟩
      obtain ⟨hhashable, rfl⟩ := hashRoot_eq_ok.mp hh
      obtain ⟨hall, rfl, rfl⟩ := ih.mp hrest
      rw [not_not] at hepoch
      subst hepoch
      exact ⟨List.forall_mem_cons.mpr ⟨⟨rfl, hhashable⟩, hall⟩, rfl, rfl⟩
    · rintro ⟨hall, rfl, rfl⟩
      obtain ⟨⟨hepoch, hhashable⟩, hrest⟩ := List.forall_mem_cons.mp hall
      simp only at hepoch hhashable
      subst hepoch
      exact ⟨by simp, _, hashRoot_eq_ok.mpr ⟨hhashable, rfl⟩, ih.mpr ⟨hrest, rfl, rfl⟩⟩

theorem insertChecked_keep {conflict : UInt64 → Error} {es : List (UInt64 × Hash)}
    {hashes hashes' : RootHashes} (h : insertChecked conflict es hashes = .ok hashes')
    {k : UInt64} {v : Hash} (hk : hashes[k]? = some v) : hashes'[k]? = some v := by
  induction es generalizing hashes with
  | nil =>
    cases h
    exact hk
  | cons p es ih =>
    obtain ⟨epoch, hash⟩ := p
    obtain ⟨hsame, h⟩ := ite_error_eq_ok.mp h
    refine ih h ?_
    rw [getElem?_insert_self_or]
    by_cases heq : epoch = k
    · subst heq
      have hv : v = hash := by simpa [hk] using hsame
      rw [if_pos rfl, hv]
    · rw [if_neg heq, hk]

theorem insertChecked_cases {conflict : UInt64 → Error} {es : List (UInt64 × Hash)}
    {hashes hashes' : RootHashes} (h : insertChecked conflict es hashes = .ok hashes')
    {k : UInt64} {v : Hash} (hk : hashes'[k]? = some v) : (k, v) ∈ es ∨ hashes[k]? = some v := by
  induction es generalizing hashes with
  | nil =>
    cases h
    exact .inr hk
  | cons p es ih =>
    obtain ⟨epoch, hash⟩ := p
    obtain ⟨-, h⟩ := ite_error_eq_ok.mp h
    rcases ih h with hmem | hprev
    · exact .inl (List.mem_cons_of_mem _ hmem)
    · rw [getElem?_insert_self_or] at hprev
      split at hprev
      · rename_i heq
        cases hprev
        exact .inl (List.mem_cons.mpr (.inl (by rw [heq])))
      · exact .inr hprev

/-! ## Pointers of an epoch -/

theorem pointersOf_eq_ok {hashes : RootHashes} {epoch : UInt64} {ps : List (UInt64 × Hash)} :
    pointersOf hashes epoch = .ok ps ↔
      ps.map Prod.fst = merkleBackpointerSequence epoch ∧ ∀ p ∈ ps, hashes[p.1]? = some p.2 := by
  rw [pointersOf, mapM_eq_ok_iff]
  generalize merkleBackpointerSequence epoch = targets
  induction targets generalizing ps with
  | nil => cases ps <;> simp
  | cons t ts ih =>
    cases ps with
    | nil => simp
    | cons p ps =>
      rw [List.forall₂_cons, ih, bind_eq_ok]
      simp only [okOr_eq_ok, Except.ok.injEq, List.map_cons, List.cons.injEq,
        List.forall_mem_cons]
      constructor
      · rintro ⟨⟨h, hh, rfl⟩, hfst, hall⟩
        exact ⟨⟨rfl, hfst⟩, hh, hall⟩
      · rintro ⟨⟨rfl, hfst⟩, hh, hall⟩
        exact ⟨⟨p.2, hh, rfl⟩, hfst, hall⟩

/-! ## In front of the walk -/

/-- What an advance to a root above the pin has checked before it connects the two. -/
theorem verifyMerkleAdvance_eq_ok_iff {digest : Digest} {pinned : VerifiedMerkleRoot}
    {latestBytes historicalBytes : List UInt8} {tail : HostchainTail} {latest : MerkleRoot}
    {advance : VerifiedMerkleAdvance} (hdecode : MerkleRoot.decode latestBytes = .ok latest)
    (hnew : pinned.epoch.toNat < latest.epoch.toNat) :
    verifyMerkleAdvance digest pinned latestBytes historicalBytes tail = .ok advance ↔
      ∃ pinnedRoot, MerkleRoot.decode pinned.rootBytes = .ok pinnedRoot ∧ Hashable pinnedRoot ∧
        pinnedRoot.epoch = pinned.epoch ∧ rootHash digest pinnedRoot = pinned.rootHash ∧
        latest.hostchain = tail ∧ Hashable latest ∧
        connectLatest digest pinned pinnedRoot latest (rootHash digest latest) latestBytes
          historicalBytes = .ok advance := by
  have hdecode' : protocol (MerkleRoot.decode latestBytes) = .ok latest :=
    protocol_eq_ok.mpr hdecode
  have hne : ¬ latest.epoch = pinned.epoch := fun heq => by rw [heq] at hnew; omega
  have hroll : ¬ latest.epoch < pinned.epoch := by
    rw [UInt64.lt_iff_toNat_lt]
    omega
  rw [verifyMerkleAdvance, bind_eq_ok]
  refine exists_congr fun pinnedRoot => ?_
  rw [protocol_eq_ok, bind_eq_ok]
  simp only [hashRoot_eq_ok, ite_error_eq_ok, hdecode', ok_bind, hroll, if_false]
  constructor
  · rintro ⟨hpinned, _, ⟨hhashable, rfl⟩, hpin, h⟩
    obtain ⟨_, htail, h⟩ := bind_eq_ok.mp h
    obtain ⟨latestHash, hhash, h⟩ := bind_eq_ok.mp h
    rw [if_neg hne] at h
    obtain ⟨hlatestOk, rfl⟩ := hashRoot_eq_ok.mp hhash
    rw [not_or, not_not, not_not] at hpin
    refine ⟨hpinned, hhashable, hpin.1, hpin.2, ?_, hlatestOk, h⟩
    unfold verifyRootHostchain at htail
    split at htail
    · assumption
    · cases htail
  · rintro ⟨hpinned, hhashable, hepoch, hhash, htail, hlatestOk, h⟩
    refine ⟨hpinned, _, ⟨hhashable, rfl⟩, by simp [hepoch, hhash], ?_⟩
    refine bind_eq_ok.mpr ⟨(), if_pos htail, ?_⟩
    refine bind_of_ok (hashRoot_eq_ok.mpr ⟨hlatestOk, rfl⟩) ?_
    rw [if_neg hne]
    exact h

end Foks.Verify
