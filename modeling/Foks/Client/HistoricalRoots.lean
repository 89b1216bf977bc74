/-
  Batched authentication of the roots a chain refers to (`foks-client`, `auth.rs`).

  The targets are cut into batches of at most 64; the epochs of a batch are merged into two
  sets, cut again into requests of at most 64 epochs, and the answers are put together in the
  order of the sets before the verifier splits them per target.

  The network is a function `call` from the two epoch lists of a request to the bytes of the
  response; nothing is assumed about it for soundness.
-/
import Foks.Client.Error
import Foks.Verify.Historical
import Foks.Verify.HistoryLength

namespace Foks.Client

open Foks.Lib Foks.Snowpack Foks.Crypto Foks.Verify
open Foks.Proto (MerkleRoot HistoricalMerkleRoots)
open Foks.MerkleStore (EpochSet)

/-! ## The client -/

def maximumTargetsPerBatch : Nat := 64

def maximumEpochsPerRequest : Nat := 64

structure HistoricalRootBatch where
  targets : List UInt64
  fullEpochs : EpochSet
  hashEpochs : EpochSet

namespace HistoricalRootBatch

def empty : HistoricalRootBatch := ⟨[], ∅, ∅⟩

/-- A target with the epochs its path needs. -/
def push (batch : HistoricalRootBatch) (target : UInt64) (requirements : MerkleHistoryRequest) :
    HistoricalRootBatch :=
  ⟨batch.targets ++ [target],
    batch.fullEpochs.insertMany
      ((Std.ExtTreeSet.ofList requirements.fullRoots).insert target).toList,
    batch.hashEpochs.insertMany (Std.ExtTreeSet.ofList requirements.hashes).toList⟩

end HistoricalRootBatch

/-- The loop over the targets in ascending order. -/
def batchLoop (latestEpoch : UInt64) (binding : String → Error) :
    List UInt64 → List HistoricalRootBatch → HistoricalRootBatch →
      Except Error (List HistoricalRootBatch)
  | [], batches, batch => .ok (if batch.targets.isEmpty then batches else batches ++ [batch])
  | target :: rest, batches, batch =>
    if target = 0 ∨ target ≥ latestEpoch then
      .error (binding "user chain references an unauthenticated future Merkle root")
    else do
      let requirements ← (merkleHistoryRequirements latestEpoch target).mapError .verify
      if batch.targets.length = maximumTargetsPerBatch then
        batchLoop latestEpoch binding rest (batches ++ [batch])
          (HistoricalRootBatch.empty.push target requirements)
      else batchLoop latestEpoch binding rest batches (batch.push target requirements)

def historicalRootBatches (latestEpoch : UInt64) (targets : List UInt64)
    (binding : String → Error) : Except Error (List HistoricalRootBatch) :=
  batchLoop latestEpoch binding (Std.ExtTreeSet.ofList targets).toList [] .empty

/-- `epochs.get(start..end).unwrap_or_default()` with the end cut at the length. -/
def epochSlice (epochs : List UInt64) (start : Nat) : List UInt64 :=
  let stop := min (start + maximumEpochsPerRequest) epochs.length
  if start ≤ stop then (epochs.take stop).drop start else []

def historicalEpochRequests (fullEpochs hashEpochs : List UInt64) :
    List (List UInt64 × List UInt64) :=
  let count := (max fullEpochs.length hashEpochs.length + maximumEpochsPerRequest - 1) /
    maximumEpochsPerRequest
  (List.range count).map fun index =>
    (epochSlice fullEpochs (index * maximumEpochsPerRequest),
      epochSlice hashEpochs (index * maximumEpochsPerRequest))

/-- A server, as the client sees it. -/
abbrev Call := List UInt64 → List UInt64 → Except Error (List UInt8)

/-- One request after the other, the answers by their epochs. -/
def collectResponses (call : Call) : List (List UInt64 × List UInt64) → RootMap → RootHashes →
    Except Error (RootMap × RootHashes)
  | [], roots, hashes => .ok (roots, hashes)
  | (requestedFull, requestedHashes) :: rest, roots, hashes => do
    let bytes ← call requestedFull requestedHashes
    let response ← (HistoricalMerkleRoots.decode bytes).mapError .protocol
    if response.roots.length ≠ requestedFull.length ∨
        response.hashes.length ≠ requestedHashes.length then
      .error (.verify .merkleHistoryShape)
    else do
      let roots ← insertNew (.verify .merkleHistoryShape) (requestedFull.zip response.roots) roots
      let hashes ← insertNew (.verify .merkleHistoryShape)
        (requestedHashes.zip response.hashes) hashes
      collectResponses call rest roots hashes

/-- The merged response of a batch. -/
def batchResponse (call : Call) (fullEpochs hashEpochs : List UInt64) :
    Except Error (List UInt8) := do
  let (roots, hashes) ← collectResponses call (historicalEpochRequests fullEpochs hashEpochs) ∅ ∅
  let roots ← removeEach (.verify .merkleHistoryShape) fullEpochs roots
  let hashes ← removeEach (.verify .merkleHistoryShape) hashEpochs hashes
  (HistoricalMerkleRoots.encoded ⟨roots, hashes⟩).mapError .protocol

def authenticateChainRootBatch (digest : Digest) (call : Call) (latest : VerifiedMerkleAdvance)
    (targets : List UInt64) (fullEpochs hashEpochs : EpochSet) : Except Error RootHashes := do
  let historical ← batchResponse call fullEpochs.toList hashEpochs.toList
  (authenticateHistoricalRootsFromLatest digest latest targets fullEpochs.toList
    hashEpochs.toList historical).mapError .verify

/-- The loop over the batches. -/
def authenticateBatches (digest : Digest) (call : Call) (latest : VerifiedMerkleAdvance) :
    List HistoricalRootBatch → RootHashes → Except Error RootHashes
  | [], authenticated => .ok authenticated
  | batch :: rest, authenticated => do
    let roots ← authenticateChainRootBatch digest call latest batch.targets batch.fullEpochs
      batch.hashEpochs
    let authenticated ← (RootHashes.merge authenticated roots).mapError .verify
    authenticateBatches digest call latest rest authenticated

def authenticateChainRoots (digest : Digest) (call : Call) (latest : VerifiedMerkleAdvance)
    (targets : List UInt64) (binding : String → Error) : Except Error RootHashes :=
  if targets.isEmpty then .ok latest.authenticatedRoots
  else do
    let batches ← historicalRootBatches latest.root.epoch targets binding
    authenticateBatches digest call latest batches latest.authenticatedRoots

/-! ## Requests -/

theorem epochSlice_eq (epochs : List UInt64) (start : Nat) :
    epochSlice epochs start = (epochs.drop start).take maximumEpochsPerRequest := by
  unfold epochSlice
  simp only
  split
  · rename_i hle
    rw [List.drop_take, List.take_eq_take_iff, List.length_drop]
    omega
  · rename_i hlt
    rw [List.drop_eq_nil_of_le (by omega), List.take_nil]

theorem epochSlices_append (epochs : List UInt64) (count : Nat) :
    (List.range count).flatMap (fun i => epochSlice epochs (i * maximumEpochsPerRequest)) =
      epochs.take (count * maximumEpochsPerRequest) := by
  induction count with
  | zero => simp
  | succ count ih =>
    rw [List.range_succ, List.flatMap_append, ih, List.flatMap_singleton, epochSlice_eq,
      Nat.succ_mul, List.take_add]

/-- The requests hold at most 64 epochs a list and together ask for all epochs, in order. -/
theorem historicalEpochRequests_spec (fullEpochs hashEpochs : List UInt64) :
    (∀ request ∈ historicalEpochRequests fullEpochs hashEpochs,
      request.1.length ≤ 64 ∧ request.2.length ≤ 64) ∧
    (historicalEpochRequests fullEpochs hashEpochs).flatMap Prod.fst = fullEpochs ∧
    (historicalEpochRequests fullEpochs hashEpochs).flatMap Prod.snd = hashEpochs := by
  have hcount : max fullEpochs.length hashEpochs.length ≤
      (max fullEpochs.length hashEpochs.length + maximumEpochsPerRequest - 1) /
        maximumEpochsPerRequest * maximumEpochsPerRequest := by
    unfold maximumEpochsPerRequest
    omega
  refine ⟨?_, ?_, ?_⟩
  · intro request hrequest
    obtain ⟨index, -, rfl⟩ := List.mem_map.mp hrequest
    simp only [epochSlice_eq]
    exact ⟨List.length_take_le .., List.length_take_le ..⟩
  · rw [historicalEpochRequests, List.flatMap_map]
    rw [epochSlices_append, List.take_of_length_le (by omega)]
  · rw [historicalEpochRequests, List.flatMap_map]
    simp only
    rw [epochSlices_append, List.take_of_length_le (by omega)]

/-! ## Batches -/

/-- What a batch of targets below the latest epoch asks for. -/
structure BatchCovers (latest : UInt64) (batch : HistoricalRootBatch) : Prop where
  covers : ∀ t ∈ batch.targets, ∃ rest,
    Covers batch.fullEpochs.toList batch.hashEpochs.toList latest t rest
  full_bounds : ∀ e ∈ batch.fullEpochs, 0 < e.toNat ∧ e.toNat < latest.toNat
  hash_bounds : ∀ e ∈ batch.hashEpochs, 0 < e.toNat ∧ e.toNat < latest.toNat

variable {batch : HistoricalRootBatch}

theorem BatchCovers.full_pos {latest : UInt64} (h : BatchCovers latest batch) :
    ∀ e ∈ batch.fullEpochs.toList, 0 < e.toNat :=
  fun e he => (h.full_bounds e (Std.ExtTreeSet.mem_toList.mp he)).1

theorem batchCovers_empty (latest : UInt64) : BatchCovers latest .empty := by
  refine ⟨fun t ht => ?_, fun e he => ?_, fun e he => ?_⟩
  · simp [HistoricalRootBatch.empty] at ht
  · simp [HistoricalRootBatch.empty] at he
  · simp [HistoricalRootBatch.empty] at he

section

variable {latest target : UInt64} {rest : List UInt64} {batch : HistoricalRootBatch}
  {requirements : MerkleHistoryRequest}

theorem mem_push_fullEpochs {e : UInt64} : e ∈ (batch.push target requirements).fullEpochs ↔
      e ∈ batch.fullEpochs ∨ e = target ∨ e ∈ requirements.fullRoots := by
  simp only [HistoricalRootBatch.push, Std.ExtTreeSet.mem_insertMany_list, List.contains_iff_mem,
    Std.ExtTreeSet.mem_toList, Std.ExtTreeSet.mem_insert, Std.compare_eq_iff_eq,
    Std.ExtTreeSet.mem_ofList, @eq_comm _ target]

theorem mem_push_hashEpochs {e : UInt64} : e ∈ (batch.push target requirements).hashEpochs ↔
      e ∈ batch.hashEpochs ∨ e ∈ requirements.hashes := by
  simp only [HistoricalRootBatch.push, Std.ExtTreeSet.mem_insertMany_list, List.contains_iff_mem,
    Std.ExtTreeSet.mem_toList, Std.ExtTreeSet.mem_ofList]

theorem BatchCovers.push (h : BatchCovers latest batch) (hpath : SkipPath latest target rest) :
    BatchCovers latest
      (batch.push target ⟨rest, SkipPath.hashEpochs latest target rest⟩) where
  covers := by
    intro t ht
    rcases List.mem_append.mp ht with ht | ht
    · obtain ⟨rest', hc⟩ := h.covers t ht
      refine ⟨rest', hc.path, fun e he => ?_, fun e he => ?_⟩
      · rw [Std.ExtTreeSet.mem_toList, mem_push_fullEpochs]
        exact .inl (Std.ExtTreeSet.mem_toList.mp (hc.roots he))
      · rw [Std.ExtTreeSet.mem_toList, mem_push_hashEpochs]
        exact .inl (Std.ExtTreeSet.mem_toList.mp (hc.hashes he))
    · rw [List.mem_singleton.mp ht]
      refine ⟨rest, hpath, fun e he => ?_, fun e he => ?_⟩
      · rw [Std.ExtTreeSet.mem_toList, mem_push_fullEpochs]
        exact .inr (List.mem_cons.mp he)
      · rw [Std.ExtTreeSet.mem_toList, mem_push_hashEpochs]
        exact .inr he
  full_bounds := by
    intro e he
    have hlt := hpath.lt
    have hpos := hpath.pinned_pos
    rcases mem_push_fullEpochs.mp he with he | rfl | he
    · exact h.full_bounds e he
    · exact ⟨hpos, hlt⟩
    · have hlow := (hpath.bounds (List.mem_cons_of_mem _ he)).1
      exact ⟨by omega, hpath.rest_lt he⟩
  hash_bounds := by
    intro e he
    rcases mem_push_hashEpochs.mp he with he | he
    · exact h.hash_bounds e he
    · obtain ⟨-, s, hs, hes⟩ := SkipPath.mem_hashEpochs.mp he
      exact hpath.pointer_bounds hs hes

end

/-- Every batch of the loop asks for what its targets need, and no target is lost. -/
theorem batchLoop_spec {latest : UInt64} (binding : String → Error) {targets : List UInt64}
    (htargets : ∀ t ∈ targets, 0 < t.toNat ∧ t.toNat < latest.toNat)
    {batches : List HistoricalRootBatch} (hbatches : ∀ b ∈ batches, BatchCovers latest b)
    (hbatch : BatchCovers latest batch) :
    ∃ out, batchLoop latest binding targets batches batch = .ok out ∧
      (∀ b ∈ out, BatchCovers latest b) ∧
      (∀ t, t ∈ targets ∨ (∃ b ∈ batches ++ [batch], t ∈ b.targets) →
        ∃ b ∈ out, t ∈ b.targets) := by
  induction targets generalizing batches batch with
  | nil =>
    rw [batchLoop]
    by_cases hempty : batch.targets.isEmpty
    · rw [if_pos hempty]
      refine ⟨batches, rfl, hbatches, ?_⟩
      rintro t (ht | ⟨b, hb, ht⟩)
      · cases ht
      · rcases List.mem_append.mp hb with hb | hb
        · exact ⟨b, hb, ht⟩
        · rw [List.mem_singleton.mp hb, List.isEmpty_iff.mp hempty] at ht
          cases ht
    · rw [if_neg hempty]
      refine ⟨_, rfl, fun b hb => ?_, ?_⟩
      · rcases List.mem_append.mp hb with hb | hb
        · exact hbatches b hb
        · rw [List.mem_singleton.mp hb]
          exact hbatch
      · rintro t (ht | ht)
        · cases ht
        · exact ht
  | cons target targets ih =>
    obtain ⟨hpos, hlt⟩ := htargets target List.mem_cons_self
    obtain ⟨rest, hpath⟩ := exists_skipPath hpos hlt
    have hguard : ¬ (target = 0 ∨ target ≥ latest) := by
      rintro (rfl | hge)
      · exact absurd hpos (by decide)
      · have := UInt64.le_iff_toNat_le.mp hge
        omega
    have hrest : ∀ t ∈ targets, 0 < t.toNat ∧ t.toNat < latest.toNat :=
      fun t ht => htargets t (List.mem_cons_of_mem _ ht)
    rw [batchLoop, if_neg hguard, mapError_eq_ok.mpr hpath.requirements_eq, ok_bind]
    by_cases hfull : batch.targets.length = maximumTargetsPerBatch
    · rw [if_pos hfull]
      obtain ⟨out, hout, hcovers, hkept⟩ := @ih _ hrest (batches ++ [batch]) (fun b hb => by
        rcases List.mem_append.mp hb with hb | hb
        · exact hbatches b hb
        · rw [List.mem_singleton.mp hb]
          exact hbatch) ((batchCovers_empty latest).push hpath)
      refine ⟨out, hout, hcovers, ?_⟩
      rintro t (ht | ⟨b, hb, ht⟩)
      · rcases List.mem_cons.mp ht with rfl | ht
        · refine hkept t (.inr ⟨_, List.mem_append_right _ (List.mem_singleton_self _), ?_⟩)
          exact List.mem_append_right _ (List.mem_singleton_self _)
        · exact hkept t (.inl ht)
      · exact hkept t (.inr ⟨b, List.mem_append_left _ hb, ht⟩)
    · rw [if_neg hfull]
      obtain ⟨out, hout, hcovers, hkept⟩ := ih hrest hbatches (hbatch.push hpath)
      have hlast := List.mem_append_right batches (List.mem_singleton_self
        (batch.push target ⟨rest, SkipPath.hashEpochs latest target rest⟩))
      refine ⟨out, hout, hcovers, ?_⟩
      rintro t (ht | ⟨b, hb, ht⟩)
      · rcases List.mem_cons.mp ht with rfl | ht
        · refine hkept t (.inr ⟨_, hlast, ?_⟩)
          exact List.mem_append_right _ (List.mem_singleton_self _)
        · exact hkept t (.inl ht)
      · rcases List.mem_append.mp hb with hb | hb
        · exact hkept t (.inr ⟨b, List.mem_append_left _ hb, ht⟩)
        · rw [List.mem_singleton.mp hb] at ht
          exact hkept t (.inr ⟨_, hlast, List.mem_append_left _ ht⟩)

theorem historicalRootBatches_spec {latest : UInt64} (binding : String → Error)
    {targets : List UInt64} (htargets : ∀ t ∈ targets, 0 < t.toNat ∧ t.toNat < latest.toNat) :
    ∃ batches, historicalRootBatches latest targets binding = .ok batches ∧
      (∀ b ∈ batches, BatchCovers latest b) ∧ ∀ t ∈ targets, ∃ b ∈ batches, t ∈ b.targets := by
  have hmem (t : UInt64) : t ∈ (Std.ExtTreeSet.ofList targets).toList ↔ t ∈ targets := by simp
  have hordered : ∀ t ∈ (Std.ExtTreeSet.ofList targets).toList,
      0 < t.toNat ∧ t.toNat < latest.toNat := fun t ht => htargets t ((hmem t).mp ht)
  have hnone : ∀ b ∈ ([] : List HistoricalRootBatch), BatchCovers latest b := by simp
  obtain ⟨batches, hok, hcovers, hkept⟩ :=
    batchLoop_spec binding hordered hnone (batchCovers_empty latest)
  exact ⟨batches, hok, hcovers, fun t ht => hkept t (.inl ((hmem t).mpr ht))⟩

/-! ## Completeness -/

variable {call : Call}

section

variable {digest : Digest} {H : History digest}

/-- The server answers a request with the honest roots and hashes. -/
def AnswersHonestly (H : History digest) (call : Call) (request : List UInt64 × List UInt64) :
    Prop :=
  ∃ bytes, call request.1 request.2 = .ok bytes ∧
    HistoricalMerkleRoots.decode bytes = .ok (H.answer ⟨request.1, request.2⟩)

/-- Honest answers to requests for distinct epochs fill the two maps with all of them. -/
theorem collectResponses_honest {requests : List (List UInt64 × List UInt64)}
    (hcall : ∀ request ∈ requests, AnswersHonestly H call request)
    (hfull : (requests.flatMap Prod.fst).Nodup) (hhash : (requests.flatMap Prod.snd).Nodup)
    {roots : RootMap} {hashes : RootHashes} (hroots : ∀ e ∈ requests.flatMap Prod.fst, e ∉ roots)
    (hhashes : ∀ e ∈ requests.flatMap Prod.snd, e ∉ hashes) :
    collectResponses call requests roots hashes =
      .ok (insertEach roots ((requests.flatMap Prod.fst).map fun e => (e, H.root e)),
        insertEach hashes ((requests.flatMap Prod.snd).map fun e => (e, H.hash e))) := by
  have hkeys {ν : Type} (f : UInt64 → ν) (es : List UInt64) :
      (es.map fun e => (e, f e)).map Prod.fst = es := by
    rw [List.map_map]
    exact List.map_id es
  induction requests generalizing roots hashes with
  | nil => rfl
  | cons request requests ih =>
    obtain ⟨bytes, hbytes, hdecode⟩ := hcall request List.mem_cons_self
    rw [List.flatMap_cons, List.nodup_append] at hfull hhash
    rw [List.flatMap_cons, List.forall_mem_append] at hroots hhashes
    -- no epoch of the later requests is there after this one
    have hrest {ν : Type} (f : UInt64 → ν) {m : Std.ExtTreeMap UInt64 ν compare}
        {es later : List UInt64} (hdisjoint : ∀ a ∈ es, ∀ b ∈ later, a ≠ b)
        (hlater : ∀ e ∈ later, e ∉ m) :
        ∀ e ∈ later, e ∉ insertEach m (es.map fun e => (e, f e)) := by
      intro e he hmem
      rcases mem_insertEach_cases hmem with hmem | hmem
      · rw [hkeys] at hmem
        exact hdisjoint e hmem e he rfl
      · exact hlater e he hmem
    rw [collectResponses, hbytes, ok_bind, mapError_eq_ok.mpr hdecode, ok_bind,
      if_neg (by simp [History.answer])]
    simp only [History.answer]
    rw [zip_map_self, zip_map_self,
      insertNew_ok _ (by rw [hkeys]; exact hfull.1) (by simpa using hroots.1), ok_bind,
      insertNew_ok _ (by rw [hkeys]; exact hhash.1) (by simpa using hhashes.1), ok_bind,
      ih (fun r hr => hcall r (List.mem_cons_of_mem _ hr)) hfull.2.1 hhash.2.1
        (hrest H.root hfull.2.2 hroots.2) (hrest H.hash hhash.2.2 hhashes.2),
      List.flatMap_cons, List.flatMap_cons, List.map_append, List.map_append, insertEach_append,
      insertEach_append]

/-- The epochs of a batch as a request. -/
def HistoricalRootBatch.request (batch : HistoricalRootBatch) : MerkleHistoryRequest :=
  ⟨batch.fullEpochs.toList, batch.hashEpochs.toList⟩

/-- The requests a batch is sent in. -/
def HistoricalRootBatch.requests (batch : HistoricalRootBatch) :
    List (List UInt64 × List UInt64) :=
  historicalEpochRequests batch.fullEpochs.toList batch.hashEpochs.toList

/-- Honest answers are put together to the honest answer to the whole batch. -/
theorem batchResponse_honest (hcall : ∀ request ∈ batch.requests, AnswersHonestly H call request) :
    batchResponse call batch.fullEpochs.toList batch.hashEpochs.toList =
      (HistoricalMerkleRoots.encoded (H.answer batch.request)).mapError .protocol := by
  obtain ⟨-, hfull, hhash⟩ :=
    historicalEpochRequests_spec batch.fullEpochs.toList batch.hashEpochs.toList
  have hfullNodup := nodup_toList batch.fullEpochs
  have hhashNodup := nodup_toList batch.hashEpochs
  unfold HistoricalRootBatch.requests at hcall
  have hlookup {ν : Type} (f : UInt64 → ν) {es : List UInt64} (hes : es.Nodup) :
      ∀ e ∈ es, (insertEach ∅ (es.map fun e => (e, f e)))[e]? = some (f e) := by
    intro e he
    refine (getElem?_insertEach ?_ _ _).mpr (.inl (List.mem_map.mpr ⟨e, he, rfl⟩))
    rw [List.map_map]
    exact (List.map_id es).symm ▸ hes
  rw [batchResponse, collectResponses_honest hcall (by rw [hfull]; exact hfullNodup)
    (by rw [hhash]; exact hhashNodup) (by simp) (by simp), ok_bind]
  simp only
  rw [hfull, hhash, removeEach_ok _ H.root hfullNodup (hlookup H.root hfullNodup), ok_bind,
    removeEach_ok _ H.hash hhashNodup (hlookup H.hash hhashNodup), ok_bind]
  rfl

variable {latest : VerifiedMerkleAdvance}

/-- A batch whose merged honest answer passes the codec is authenticated. -/
theorem authenticateChainRootBatch_honest (hlatest : HonestLatest H latest)
    (hmax : latest.root.epoch.toNat < 65536) (hcovers : BatchCovers latest.root.epoch batch)
    (hcall : ∀ request ∈ batch.requests, AnswersHonestly H call request)
    (hcod : Codable (H.answer batch.request).value) :
    ∃ out, authenticateChainRootBatch digest call latest batch.targets batch.fullEpochs
        batch.hashEpochs = .ok out ∧ HonestMap H out ∧
      ∀ t ∈ batch.targets, out[t]? = some (H.hash t) := by
  obtain ⟨out, hout, hhonest, hkeep⟩ := historicalRoots_complete hlatest
    (nodup_toList batch.fullEpochs) (nodup_toList batch.hashEpochs) hcovers.full_pos
    hcovers.covers hcod hmax
  refine ⟨out, ?_, hhonest, fun t ht => hkeep t (.inr ht)⟩
  rw [authenticateChainRootBatch, batchResponse_honest hcall,
    HistoricalMerkleRoots.encoded_eq hcod, mapError_eq_ok.mpr rfl, ok_bind]
  exact mapError_eq_ok.mpr hout

theorem authenticateBatches_honest (hlatest : HonestLatest H latest)
    (hmax : latest.root.epoch.toNat < 65536) {batches : List HistoricalRootBatch}
    (hcovers : ∀ b ∈ batches, BatchCovers latest.root.epoch b)
    (hcall : ∀ b ∈ batches, ∀ request ∈ b.requests, AnswersHonestly H call request)
    (hcod : ∀ b ∈ batches, Codable (H.answer b.request).value) {authenticated : RootHashes}
    (hhonest : HonestMap H authenticated) :
    ∃ out, authenticateBatches digest call latest batches authenticated = .ok out ∧
      ∀ k, authenticated[k]? = some (H.hash k) ∨ (∃ b ∈ batches, k ∈ b.targets) →
        out[k]? = some (H.hash k) := by
  induction batches generalizing authenticated with
  | nil =>
    refine ⟨authenticated, rfl, ?_⟩
    rintro k (hk | ⟨b, hb, -⟩)
    · exact hk
    · cases hb
  | cons batch batches ih =>
    rw [List.forall_mem_cons] at hcovers hcall hcod
    obtain ⟨roots, hroots, hrootsHonest, htargets⟩ :=
      authenticateChainRootBatch_honest hlatest hmax hcovers.1 hcall.1 hcod.1
    obtain ⟨hmerged, hkeep⟩ := insertEach_toList_honest hhonest hrootsHonest
    obtain ⟨out, hout, hall⟩ := ih hcovers.2 hcall.2 hcod.2 hmerged
    refine ⟨out, ?_, ?_⟩
    · rw [authenticateBatches, hroots, ok_bind,
        mapError_eq_ok.mpr (merge_honest hhonest hrootsHonest), ok_bind]
      exact hout
    · rintro k (hk | ⟨b, hb, hk⟩)
      · exact hall k (.inl (hkeep k (.inl hk)))
      · rcases List.mem_cons.mp hb with rfl | hb
        · exact hall k (.inl (hkeep k (.inr (htargets k hk))))
        · exact hall k (.inr ⟨b, hb, hk⟩)

/-- Without extension fields every batch below epoch 65536 passes the codec. -/
theorem plain_answer_codable (hplain : ∀ e, (H.root e).extensions = []) {latest : UInt64}
    (hmax : latest.toNat < 65536) (hcovers : BatchCovers latest batch) :
    Codable (H.answer batch.request).value := by
  have hlen (s : EpochSet) (hs : ∀ e ∈ s, 0 < e.toNat ∧ e.toNat < latest.toNat) :
      s.toList.length ≤ 65535 := by
    refine length_le_of_nodup (nodup_toList s) fun e he => ?_
    have := hs e (Std.ExtTreeSet.mem_toList.mp he)
    omega
  have hfull := hlen _ hcovers.full_bounds
  have hhash := hlen _ hcovers.hash_bounds
  have hsum (es : List UInt64) : (es.map fun e => (H.root e).value.size).sum = es.length * 11 := by
    rw [List.sum_eq_card_nsmul _ 11 (by simp [plain_size (hplain _)]), List.length_map, smul_eq_mul]
  rw [HistoricalMerkleRoots.codable_value_iff]
  refine ⟨fun root hroot => ?_, ?_⟩
  · obtain ⟨e, -, rfl⟩ := List.mem_map.mp hroot
    exact plain_fits (hplain e) (by omega)
  · simp only [History.answer, HistoricalRootBatch.request, List.map_map, Function.comp_def,
      List.length_map, hsum]
    unfold maximumDecodedValues
    omega

end

/-! ## The run of a client -/

/-- Batched authentication. The requests of targets below the latest epoch have at most 64 epochs
    a list; honest answers authenticate every target when the merged answer of each batch passes
    the codec, as it does when no root has extension fields; and whatever was answered, a set that
    is returned is honest. -/
theorem chainRoots_batched (digest : Digest) (H : History digest) (latest : VerifiedMerkleAdvance)
    (hlatest : HonestLatest H latest) (hmax : latest.root.epoch < 65536) :
    (∀ (targets : List UInt64) (binding : String → Error) (call : Call),
      (∀ t ∈ targets, 1 ≤ t ∧ t < latest.root.epoch) →
      ∃ batches, historicalRootBatches latest.root.epoch targets binding = .ok batches ∧
        (∀ b ∈ batches, ∀ request ∈ b.requests,
          request.1.length ≤ 64 ∧ request.2.length ≤ 64) ∧
        ((∀ e, (H.root e).extensions = []) →
          ∀ b ∈ batches, Codable (H.answer b.request).value) ∧
        ((∀ b ∈ batches, ∀ request ∈ b.requests, AnswersHonestly H call request) →
          (∀ b ∈ batches, Codable (H.answer b.request).value) →
          (∀ b ∈ batches, ∃ out, authenticateChainRootBatch digest call latest b.targets
            b.fullEpochs b.hashEpochs = .ok out ∧ ∀ t ∈ b.targets, out[t]? = some (H.hash t)) ∧
          ∃ out, authenticateChainRoots digest call latest targets binding = .ok out ∧
            ∀ t ∈ targets, out[t]? = some (H.hash t))) ∧
    (∀ (targets fullEpochs hashEpochs : List UInt64) (historicalBytes : List UInt8)
        (out : RootHashes),
      CollisionFree digest (H.inputs latest.root.epoch ++
        historicalInputs digest latest targets fullEpochs hashEpochs historicalBytes) →
      authenticateHistoricalRootsFromLatest digest latest targets fullEpochs hashEpochs
        historicalBytes = .ok out →
      ∀ epoch hash, out[epoch]? = some hash → hash = H.hash epoch) := by
  have hmax : latest.root.epoch.toNat < 65536 := UInt64.lt_iff_toNat_lt.mp hmax
  refine ⟨fun targets binding call htargets => ?_, ?_⟩
  · have hbounds : ∀ t ∈ targets, 0 < t.toNat ∧ t.toNat < latest.root.epoch.toNat := by
      intro t ht
      obtain ⟨hone, hlt⟩ := htargets t ht
      exact ⟨UInt64.le_iff_toNat_le.mp hone, UInt64.lt_iff_toNat_lt.mp hlt⟩
    obtain ⟨batches, hbatches, hcovers, hkept⟩ := historicalRootBatches_spec binding hbounds
    refine ⟨batches, hbatches, fun b _ => (historicalEpochRequests_spec _ _).1,
      fun hplain b hb => plain_answer_codable hplain hmax (hcovers b hb), fun hcall hcod => ?_⟩
    refine ⟨fun b hb => ?_, ?_⟩
    · obtain ⟨out, hout, -, htargets⟩ :=
        authenticateChainRootBatch_honest hlatest hmax (hcovers b hb) (hcall b hb) (hcod b hb)
      exact ⟨out, hout, htargets⟩
    · rw [authenticateChainRoots]
      by_cases hempty : targets.isEmpty
      · rw [if_pos hempty, List.isEmpty_iff.mp hempty]
        exact ⟨_, rfl, fun t ht => nomatch ht⟩
      · rw [if_neg hempty, hbatches, ok_bind]
        obtain ⟨out, hout, hall⟩ :=
          authenticateBatches_honest hlatest hmax hcovers hcall hcod hlatest.honest
        exact ⟨out, hout, fun t ht => hall t (.inr (hkept t ht))⟩
  · intro targets fullEpochs hashEpochs historicalBytes out hfree h
    exact historicalRoots_sound hlatest hfree h

/-- A server that answers from a history. -/
def honestCall {digest : Digest} (H : History digest) : Call :=
  fun full hashes => .ok (wire (H.answer ⟨full, hashes⟩).value)

/-- A client that has followed a history to an epoch and keeps its hash only. -/
def latestOf {digest : Digest} (H : History digest) (epoch : UInt64) : VerifiedMerkleAdvance :=
  ⟨H.root epoch, ⟨epoch, H.hash epoch, (H.root epoch).bytes, .signedBootstrap [],
    [⟨epoch, H.hash epoch, none⟩]⟩, (∅ : RootHashes).insert epoch (H.hash epoch)⟩

theorem latestOf_honest {digest : Digest} (H : History digest) {epoch : UInt64}
    (hpos : 0 < epoch.toNat) : HonestLatest H (latestOf H epoch) := by
  have hepoch : (latestOf H epoch).root.epoch = epoch := H.epoch_eq epoch hpos
  exact ⟨by rwa [hepoch], by rw [hepoch]; rfl, rfl, by rw [hepoch]; rfl, honestMap_empty.insert _⟩

/-- A server that answers from a history answers each request of a batch whose merged answer
    passes the codec. -/
theorem honestCall_answers {digest : Digest} {H : History digest} {latest : UInt64}
    (hcovers : BatchCovers latest batch) (hcod : Codable (H.answer batch.request).value) :
    ∀ request ∈ batch.requests, AnswersHonestly H (honestCall H) request := by
  intro request hrequest
  obtain ⟨index, -, rfl⟩ := List.mem_map.mp hrequest
  have hsub (epochs : List UInt64) (start : Nat) : (epochSlice epochs start).Sublist epochs := by
    rw [epochSlice_eq]
    exact (List.take_sublist ..).trans (List.drop_sublist ..)
  refine ⟨_, rfl, H.decode_answer (H.answer_codable_mono hcod (hsub _ _).subset
    ((hsub _ _).nodup (nodup_toList _)) (hsub _ _).subset ((hsub _ _).nodup (nodup_toList _))) ?_⟩
  exact fun e he => hcovers.full_pos e ((hsub _ _).subset he)

/-- The sample history, from epoch 5 to three others: the targets are authenticated together, and
    with the honest hashes only. -/
theorem chainRoots_batched_sample :
    ∃ batch out,
      historicalRootBatches 5 [3, 1, 2] .userBinding = .ok [batch] ∧
      authenticateChainRoots Sha512.hash256 (honestCall sampleHistory) (latestOf sampleHistory 5)
        [3, 1, 2] .userBinding = .ok out ∧
      (∀ t ∈ [3, 1, 2], out[t]? = some (sampleHistory.hash t)) ∧
      ∃ out, authenticateHistoricalRootsFromLatest Sha512.hash256 (latestOf sampleHistory 5)
          batch.targets batch.fullEpochs.toList batch.hashEpochs.toList
          (wire (sampleHistory.answer batch.request).value) = .ok out ∧
        ∀ epoch hash, out[epoch]? = some hash → hash = sampleHistory.hash epoch := by
  have hlatest : HonestLatest sampleHistory (latestOf sampleHistory 5) :=
    latestOf_honest _ (by decide)
  have hepoch : (latestOf sampleHistory 5).root.epoch = 5 := sampleHistory.epoch_eq 5 (by decide)
  obtain ⟨hcomplete, hsound⟩ := chainRoots_batched _ sampleHistory (latestOf sampleHistory 5)
    hlatest (by rw [hepoch]; decide)
  obtain ⟨batches, hbatches, -, hplain, hrun⟩ := hcomplete [3, 1, 2]
    .userBinding (honestCall sampleHistory) (by rw [hepoch]; simp)
  have hcod := hplain sampleHistory_plain
  obtain ⟨batches', hbatches', hcovers, -⟩ :=
    @historicalRootBatches_spec 5 .userBinding [3, 1, 2] (by simp)
  rw [hepoch] at hbatches
  obtain rfl := Except.ok.inj (hbatches'.symm.trans hbatches)
  obtain ⟨-, out, hout, htargets⟩ :=
    hrun (fun b hb => honestCall_answers (hcovers b hb) (hcod b hb)) hcod
  obtain ⟨batch, rfl⟩ : ∃ batch, batches' = [batch] := by
    have hlength : (match historicalRootBatches 5 [3, 1, 2] .userBinding with
        | .ok batches => batches.length
        | .error _ => 0) = 1 := by decide +kernel
    rw [hbatches] at hlength
    exact List.length_eq_one_iff.mp hlength
  have hb := List.mem_singleton_self batch
  have hbatchCovers : BatchCovers (latestOf sampleHistory 5).root.epoch batch := by
    exact hcovers batch hb
  have hfull := nodup_toList batch.fullEpochs
  have hhash := nodup_toList batch.hashEpochs
  have hpos := hbatchCovers.full_pos
  obtain ⟨direct, hdirect, -⟩ := historicalRoots_complete hlatest hfull hhash hpos
    hbatchCovers.covers (hcod batch hb) (by rw [hepoch]; decide)
  have hinputs := historicalInputs_honest hlatest hfull hhash hpos hbatchCovers.covers
    (hcod batch hb)
  refine ⟨batch, out, hbatches, hout, htargets, direct, hdirect, ?_⟩
  exact hsound _ _ _ _ direct (by rw [hepoch]; exact sampleHistory_free.append hinputs) hdirect

/-! ## An answer too large to be put together -/

/-- The number of null extension fields of root 478 in the heavy history. -/
def heavyFields : Nat := 999779

/-- Content like the sample's, but root 478 has extension fields. -/
def heavyContent (e : UInt64) : MerkleRoot :=
  { sampleContent e with extensions := List.replicate (if e = 478 then heavyFields else 0) .null }

def heavyHistory : History Sha512.hash256 :=
  History.ofContent _ heavyContent fun e _ =>
    nulls_hashable rfl (by unfold heavyFields maximumDecodedValues; split <;> omega)
      (by unfold heavyFields; split <;> omega)

theorem heavyHistory_extensions (e : UInt64) : (heavyHistory.root e).extensions =
    List.replicate (if e = 478 then heavyFields else 0) .null := by
  show (publishRoot Sha512.hash256 heavyContent e.toNat e).extensions = _
  cases e.toNat <;> rfl

/-- The full roots that authenticating epoch 1 from epoch 479 needs. -/
def heavyFull : List UInt64 := [1, 4, 8, 16, 32, 64, 128, 256, 384, 448, 464, 472, 476, 478]

/-- The hashes it needs, one more than a request can have. -/
def heavyHashes : List UInt64 :=
  [2, 3, 4, 6, 7, 8, 12, 14, 15, 16, 24, 28, 30, 31, 32, 48, 56, 60, 62, 63, 64, 96, 112, 120, 124,
    126, 127, 128, 192, 224, 240, 248, 252, 254, 255, 256, 320, 352, 368, 376, 380, 382, 383, 384,
    416, 432, 440, 444, 446, 447, 448, 456, 460, 462, 463, 464, 468, 470, 471, 472, 474, 475, 476,
    477, 478]

def heavyBatch : HistoricalRootBatch :=
  HistoricalRootBatch.empty.push 1 ⟨heavyFull.tail.reverse, heavyHashes.reverse⟩

theorem heavyBatch_eq : historicalRootBatches 479 [1] .userBinding = .ok [heavyBatch] := by
  have hrequest : merkleHistoryRequirements 479 1 =
      .ok ⟨heavyFull.tail.reverse, heavyHashes.reverse⟩ := by decide +kernel
  have horder : (Std.ExtTreeSet.ofList [(1 : UInt64)]).toList = [1] := by decide +kernel
  rw [historicalRootBatches, horder, batchLoop, if_neg (by decide), hrequest]
  rfl

theorem heavyBatch_epochs :
    heavyBatch.fullEpochs.toList = heavyFull ∧ heavyBatch.hashEpochs.toList = heavyHashes := by
  decide +kernel

/-- A value count of the heavy history: the fields of root 478 come on top. -/
theorem heavyAnswer_codable_iff {fullRoots hashes : List UInt64} :
    Codable (heavyHistory.answer ⟨fullRoots, hashes⟩).value ↔
      3 + fullRoots.length * 11 + fullRoots.count 478 * heavyFields + hashes.length ≤
        maximumDecodedValues := by
  have hsum (es : List UInt64) : (es.map fun e => (heavyHistory.root e).value.size).sum =
      es.length * 11 + es.count 478 * heavyFields := by
    induction es with
    | nil => rfl
    | cons e es ih =>
      rw [List.map_cons, List.sum_cons, ih, nulls_size (heavyHistory_extensions e),
        List.length_cons, List.count_cons]
      by_cases he : e = 478
      · simp only [he, if_true, beq_self_eq_true]
        ring
      · simp only [he, if_false, beq_iff_eq]
        ring
  have hfits (e : UInt64) : Fits 2 (heavyHistory.root e).value := by
    refine nulls_fits (heavyHistory_extensions e) ?_ (by omega)
    unfold heavyFields maximumDecodedValues
    split <;> omega
  rw [HistoricalMerkleRoots.codable_value_iff]
  simp only [History.answer, List.map_map, Function.comp_def, List.length_map, hsum, ← add_assoc]
  refine and_iff_right fun root hroot => ?_
  obtain ⟨e, -, rfl⟩ := List.mem_map.mp hroot
  exact hfits e

/-- Every request of the batch is answered within the limits of the codec. -/
theorem heavyBatch_answered :
    ∀ request ∈ heavyBatch.requests,
      AnswersHonestly heavyHistory (honestCall heavyHistory) request := by
  have hrequests : heavyBatch.requests = [(heavyFull, heavyHashes.take 64), ([], [478])] := by
    decide +kernel
  rw [hrequests]
  intro request hrequest
  refine ⟨_, rfl, heavyHistory.decode_answer (heavyAnswer_codable_iff.mpr ?_) ?_⟩
  · fin_cases hrequest <;> decide +kernel
  · fin_cases hrequest
    · simp [heavyFull]
    · simp

/-- A history of which every request is answered but no batch is accepted: the two answers
    together have one value more than the decoder reads. -/
theorem chainRoots_batched_too_large :
    HonestLatest heavyHistory (latestOf heavyHistory 479) ∧
    historicalRootBatches 479 [1] .userBinding = .ok [heavyBatch] ∧
    (∀ request ∈ heavyBatch.requests,
      AnswersHonestly heavyHistory (honestCall heavyHistory) request) ∧
    (∀ out, authenticateChainRootBatch Sha512.hash256 (honestCall heavyHistory)
      (latestOf heavyHistory 479) heavyBatch.targets heavyBatch.fullEpochs heavyBatch.hashEpochs ≠
        .ok out) := by
  refine ⟨latestOf_honest _ (by decide), heavyBatch_eq, heavyBatch_answered, fun out hout => ?_⟩
  obtain ⟨historical, hhistorical, hout⟩ := bind_eq_ok.mp hout
  obtain ⟨maps, hmaps, -⟩ := bind_eq_ok.mp (mapError_eq_ok.mp hout)
  obtain ⟨read, hread, -⟩ := bind_eq_ok.mp hmaps
  rw [batchResponse_honest heavyBatch_answered] at hhistorical
  have hcod := HistoricalMerkleRoots.codable_of_encoded (mapError_eq_ok.mp hhistorical)
    (protocol_eq_ok.mp hread)
  rw [HistoricalRootBatch.request, heavyAnswer_codable_iff, heavyBatch_epochs.1,
    heavyBatch_epochs.2] at hcod
  exact absurd hcod (by decide)

end Foks.Client
