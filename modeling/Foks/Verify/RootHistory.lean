/-
  Honest histories of Merkle roots.

  `rootHash` and `pointersHash` are the hashes that the verifier's fallible `hashRoot` and
  `hashBackPointers` return when they return. A `History` has a root for every positive epoch,
  each committing to the hashes of the roots its back pointers name.

  The only thing asked of the hash function is that it has no collision among the strings that
  occur: those of the honest roots and pointer lists (`History.inputs`), and those the verifier
  hashes.
-/
import Foks.Lib.Sha512
import Foks.Verify.SkipPath

namespace Foks.Verify

open Foks.Lib Foks.Snowpack Foks.Crypto
open Foks.Proto (HostchainTail MerkleRoot HistoricalMerkleRoots merkleRootTypeId
  merkleBackPointersTypeId)
open Foks.MerkleStore (backPointersValue)

/-! ## Hashes of roots and of pointer lists -/

/-- A root that the verifier can hash. -/
structure Hashable (root : MerkleRoot) : Prop where
  codable : Codable root.value
  signable : Signable root.value

section

variable (digest : Digest)

def rootHash (root : MerkleRoot) : Hash :=
  Crypto.prefixedHash digest merkleRootTypeId root.bytes

def pointersHash (pointers : List (UInt64 × Hash)) : Hash :=
  Crypto.prefixedHash digest merkleBackPointersTypeId (wire (backPointersValue pointers))

theorem hashRoot_eq_ok {digest : Digest} {root : MerkleRoot} {h : Hash} :
    hashRoot digest root = .ok h ↔ Hashable root ∧ h = rootHash digest root := by
  constructor
  · intro hok
    obtain ⟨bs, hbs, hok⟩ := bind_eq_ok.mp hok
    have henc : encode root.value = .ok bs := mapError_eq_ok.mp (protocol_eq_ok.mp hbs)
    obtain ⟨hcod, hsig, rfl⟩ := (prefixedHash_eq_ok henc).mp hok
    exact ⟨⟨hcod, hsig⟩, rfl⟩
  · rintro ⟨⟨hcod, hsig⟩, rfl⟩
    have henc := hcod.encode_eq
    exact bind_eq_ok.mpr ⟨_, protocol_eq_ok.mpr (MerkleRoot.encoded_eq hcod),
      (prefixedHash_eq_ok henc).mpr ⟨hcod, hsig, rfl⟩⟩

theorem hashBackPointers_eq_ok {digest : Digest} {pointers : List (UInt64 × Hash)} {h : Hash} :
    hashBackPointers digest pointers = .ok h ↔
      Codable (backPointersValue pointers) ∧ Signable (backPointersValue pointers) ∧
        h = pointersHash digest pointers := by
  constructor
  · intro hok
    obtain ⟨bs, hbs, hok⟩ := bind_eq_ok.mp hok
    exact (prefixedHash_eq_ok (mapError_eq_ok.mp hbs)).mp hok
  · rintro ⟨hcod, hsig, rfl⟩
    have henc := hcod.encode_eq
    exact bind_eq_ok.mpr ⟨_, mapError_eq_ok.mpr henc,
      (prefixedHash_eq_ok henc).mpr ⟨hcod, hsig, rfl⟩⟩

/-- The value of one pointer. -/
def pointerValue (p : UInt64 × Hash) : Value := .array [.unsigned p.1, .binary p.2.bytes]

theorem backPointersValue_cons (p : UInt64 × Hash) (ps : List (UInt64 × Hash)) :
    backPointersValue (p :: ps) = .array ((p :: ps).map pointerValue) := rfl

theorem sizes_pointerValues (ps : List (UInt64 × Hash)) :
    Value.sizes (ps.map pointerValue) = 3 * ps.length := by
  induction ps with
  | nil => rfl
  | cons p ps ih =>
    simp only [List.map_cons, Value.sizes, pointerValue, Value.size, List.length_cons] at *
    omega

variable {ps : List (UInt64 × Hash)}

/-- A list of pointers that an epoch can have passes the codec. -/
theorem backPointersValue_codable (hlen : ps.length ≤ 64) : Codable (backPointersValue ps) := by
  cases ps with
  | nil => exact ⟨by simp [backPointersValue, Fits, maxDepth], by decide⟩
  | cons p ps =>
    rw [backPointersValue_cons]
    refine ⟨⟨by decide, by simp, ?_, ?_⟩, ?_⟩
    · rw [List.length_map]
      unfold u32Max
      omega
    · rw [fitsAll_iff]
      intro v hv
      obtain ⟨q, -, rfl⟩ := List.mem_map.mp hv
      have := q.2.size_eq
      refine ⟨by decide, by simp, by simp [u32Max], ⟨by simp [Fits, maxDepth], ⟨?_, trivial⟩⟩⟩
      exact ⟨by decide, by unfold u32Max; omega⟩
    · rw [Value.size, sizes_pointerValues]
      unfold maximumDecodedValues
      omega

theorem backPointersValue_signable (hlen : ps.length < 16) : Signable (backPointersValue ps) := by
  cases ps with
  | nil => trivial
  | cons p ps =>
    rw [backPointersValue_cons, Signable, List.length_map]
    refine ⟨by omega, ?_⟩
    generalize p :: ps = qs
    induction qs with
    | nil => trivial
    | cons q qs ih => exact ⟨by simp [pointerValue, Signable, SignableAll], ih⟩

theorem pointerValue_inj {p q : UInt64 × Hash} (h : pointerValue p = pointerValue q) : p = q := by
  simp only [pointerValue, Value.array.injEq, List.cons.injEq, Value.unsigned.injEq,
    Value.binary.injEq, and_true] at h
  exact Prod.ext h.1 (FixedBytes.ext h.2)

theorem backPointersValue_inj {qs : List (UInt64 × Hash)}
    (h : backPointersValue ps = backPointersValue qs) : ps = qs := by
  cases ps with
  | nil =>
    cases qs with
    | nil => rfl
    | cons q qs => simp [backPointersValue] at h
  | cons p ps =>
    cases qs with
    | nil => simp [backPointersValue] at h
    | cons q qs =>
      rw [backPointersValue_cons, backPointersValue_cons, Value.array.injEq] at h
      exact List.map_injective_iff.mpr (fun _ _ => pointerValue_inj) h

/-! ## Histories -/

/-- A root for every positive epoch, each committing to the roots its back pointers name. -/
structure History (digest : Digest) where
  root : UInt64 → MerkleRoot
  epoch_eq : ∀ e, 0 < e.toNat → (root e).epoch = e
  hashable : ∀ e, 0 < e.toNat → Hashable (root e)
  pointers_eq : ∀ e, 0 < e.toNat → (root e).backPointers =
    pointersHash digest ((merkleBackpointerSequence e).map fun t => (t, rootHash digest (root t)))

/-- The string hashed for a root. -/
def rootInput (root : MerkleRoot) : List UInt8 := hashInput merkleRootTypeId root.bytes

/-- The string hashed for a list of pointers. -/
def pointersInput (pointers : List (UInt64 × Hash)) : List UInt8 :=
  hashInput merkleBackPointersTypeId (wire (backPointersValue pointers))

theorem backpointers_length_le (e : UInt64) : (merkleBackpointerSequence e).length ≤ 64 := by
  have hlen := congrArg List.length (MerkleStore.backPointerSequence_eq e)
  rw [List.length_map] at hlen
  rw [merkleBackpointerSequence_eq, hlen, MerkleStore.epochPointers]
  split
  · simp only [List.length_map, List.length_reverse, List.length_range]
    omega
  · rw [skips, List.length_map, List.length_range]
    exact (skipCount_lt (by omega) e.toNat_lt).le

namespace History

variable {digest : Digest} (H : History digest)

def hash (e : UInt64) : Hash := rootHash digest (H.root e)

def pointers (e : UInt64) : List (UInt64 × Hash) :=
  (merkleBackpointerSequence e).map fun t => (t, H.hash t)

/-- The honest answer to a request. -/
def answer (history : MerkleHistoryRequest) : HistoricalMerkleRoots :=
  ⟨history.fullRoots.map H.root, history.hashes.map H.hash⟩

/-- The strings hashed for the roots and the pointer lists of the epochs up to `n`. -/
def inputs (n : UInt64) : List (List UInt8) :=
  (List.range n.toNat).flatMap fun i =>
    [rootInput (H.root (UInt64.ofNat (i + 1))), pointersInput (H.pointers (UInt64.ofNat (i + 1)))]

theorem mem_inputs {n e : UInt64} (hpos : 0 < e.toNat) (hle : e.toNat ≤ n.toNat) :
    rootInput (H.root e) ∈ H.inputs n ∧ pointersInput (H.pointers e) ∈ H.inputs n := by
  have he : UInt64.ofNat (e.toNat - 1 + 1) = e := by
    rw [Nat.sub_add_cancel hpos, UInt64.ofNat_toNat]
  simp only [inputs, List.mem_flatMap, List.mem_range]
  exact ⟨⟨e.toNat - 1, by omega, by simp [he]⟩, ⟨e.toNat - 1, by omega, by simp [he]⟩⟩

theorem decode_root {e : UInt64} (hpos : 0 < e.toNat) :
    MerkleRoot.decode (H.root e).bytes = .ok (H.root e) := by
  refine MerkleRoot.decode_eq_ok.mpr ⟨?_, (H.hashable e hpos).codable, rfl⟩
  rw [H.epoch_eq e hpos]
  rintro rfl
  simp at hpos

theorem pointers_codable (e : UInt64) : Codable (backPointersValue (H.pointers e)) := by
  refine backPointersValue_codable ?_
  rw [pointers, List.length_map]
  exact backpointers_length_le e

section

variable {H} {fullRoots hashes : List UInt64}

/-- An honest answer within the limits of the codec is read back as it was written. -/
theorem decode_answer (hcod : Codable (H.answer ⟨fullRoots, hashes⟩).value)
    (hpos : ∀ e ∈ fullRoots, 0 < e.toNat) :
    HistoricalMerkleRoots.decode (wire (H.answer ⟨fullRoots, hashes⟩).value) =
      .ok (H.answer ⟨fullRoots, hashes⟩) := by
  refine HistoricalMerkleRoots.decode_value hcod fun root hroot => ?_
  obtain ⟨e, he, rfl⟩ := List.mem_map.mp hroot
  rw [H.epoch_eq e (hpos e he)]
  rintro rfl
  exact absurd (hpos 0 he) (by decide)

/-- A part of an answer that passes the codec passes it too. -/
theorem answer_codable_mono (hcod : Codable (H.answer ⟨fullRoots, hashes⟩).value)
    {fullRoots' hashes' : List UInt64} (hroots : fullRoots' ⊆ fullRoots)
    (hrootsNodup : fullRoots'.Nodup) (hhashes : hashes' ⊆ hashes) (hhashesNodup : hashes'.Nodup) :
    Codable (H.answer ⟨fullRoots', hashes'⟩).value := by
  rw [HistoricalMerkleRoots.codable_value_iff] at hcod ⊢
  obtain ⟨hfits, hsize⟩ := hcod
  refine ⟨fun root hroot => ?_, ?_⟩
  · obtain ⟨e, he, rfl⟩ := List.mem_map.mp hroot
    exact hfits _ (List.mem_map_of_mem (hroots he))
  · have hlen := (List.subperm_of_subset hhashesNodup hhashes).length_le
    have hsum : (fullRoots'.map fun e => (H.root e).value.size).sum ≤
        (fullRoots.map fun e => (H.root e).value.size).sum := by
      obtain ⟨l, hperm, hsub⟩ := List.subperm_of_subset hrootsNodup hroots
      rw [← (hperm.map _).sum_eq]
      exact (hsub.map _).sum_le_sum (fun _ _ => Nat.zero_le _)
    simp only [answer, List.map_map, Function.comp_def, List.length_map] at hsize ⊢
    omega

end

section

variable {H} {others : List (List UInt8)} {n e : UInt64}

/-- A root with the hash of an honest one is the honest one. -/
theorem root_eq (hfree : CollisionFree digest (H.inputs n ++ others)) (hpos : 0 < e.toNat)
    (hle : e.toNat ≤ n.toNat) {root : MerkleRoot} (hroot : Hashable root)
    (hmem : rootInput root ∈ others) (heq : rootHash digest root = H.hash e) :
    root = H.root e := by
  refine MerkleRoot.bytes_inj hroot.codable (H.hashable e hpos).codable ?_
  exact hfree.object_eq (List.mem_append_right _ hmem)
    (List.mem_append_left _ (H.mem_inputs hpos hle).1) heq

/-- A list of pointers with the hash that an honest root commits to is the honest list. -/
theorem pointers_eq_of_hash (hfree : CollisionFree digest (H.inputs n ++ others))
    (hpos : 0 < e.toNat) (hle : e.toNat ≤ n.toNat) (hcod : Codable (backPointersValue ps))
    (hmem : pointersInput ps ∈ others) (heq : pointersHash digest ps = (H.root e).backPointers) :
    ps = H.pointers e := by
  rw [H.pointers_eq e hpos] at heq
  have hwire : wire (backPointersValue ps) = wire (backPointersValue (H.pointers e)) :=
    hfree.object_eq (List.mem_append_right _ hmem)
      (List.mem_append_left _ (H.mem_inputs hpos hle).2) heq
  have henc := (H.pointers_codable e).encode_eq
  rw [← hwire] at henc
  exact backPointersValue_inj (encode_inj hcod.encode_eq henc)

end

end History

/-! ## Publishing a history -/

section

variable {root : MerkleRoot}

/-- A root with null extensions fits, as long as they are not too many. -/
theorem nulls_fits {count depth : Nat} (h : root.extensions = List.replicate count .null)
    (hcount : count ≤ maximumDecodedValues) (hd : depth ≤ 60) : Fits depth root.value := by
  have hhash (a : Hash) : a.bytes.length = 32 := a.size_eq
  have hnulls : ∀ v ∈ List.replicate count Value.null, Fits (depth + 3) v := by
    intro v hv
    rw [List.eq_of_mem_replicate hv]
    show depth + 3 ≤ maxDepth
    unfold maxDepth
    omega
  rw [← fitsAll_iff] at hnulls
  unfold maximumDecodedValues at hcount
  simp only [MerkleRoot.value, h, Fits, FitsAll, maxDepth, hhash, u32Max, List.cons_append,
    List.nil_append, List.length_cons, List.length_nil, List.length_replicate, hnulls, and_true,
    true_and, ne_eq, reduceCtorEq, not_false_eq_true]
  omega

theorem nulls_size {count : Nat} (h : root.extensions = List.replicate count .null) :
    root.value.size = 11 + count := by
  have hnulls : Value.sizes (List.replicate count .null) = count := by
    rw [Value.sizes_eq_sum, List.map_replicate, List.sum_replicate, Value.size, smul_eq_mul,
      mul_one]
  simp only [MerkleRoot.value, h, Value.size, Value.sizes, List.cons_append, List.nil_append,
    hnulls]
  omega

/-- The signable encoding has no arrays of 16 to 31 elements. -/
theorem nulls_hashable {count : Nat} (h : root.extensions = List.replicate count .null)
    (hcount : count + 11 ≤ maximumDecodedValues) (hgap : count ≤ 10 ∨ 27 ≤ count) :
    Hashable root := by
  refine ⟨⟨nulls_fits h (by omega) (by omega), ?_⟩, ?_⟩
  · rw [nulls_size h]
    omega
  · have hnulls : SignableAll (List.replicate count .null) := by
      clear h hcount hgap
      induction count with
      | zero => trivial
      | succ count ih => exact ⟨trivial, ih⟩
    simp only [MerkleRoot.value, h, Signable, SignableAll, List.cons_append, List.nil_append,
      List.length_cons, List.length_nil, List.length_replicate, hnulls, and_true, true_and]
    omega

theorem plain_fits (h : root.extensions = []) {depth : Nat} (hd : depth ≤ 60) :
    Fits depth root.value := @nulls_fits root 0 depth h (Nat.zero_le _) hd

theorem plain_size (h : root.extensions = []) : root.value.size = 11 := @nulls_size root 0 h

theorem hashable_of_plain (h : root.extensions = []) : Hashable root :=
  @nulls_hashable root 0 h (by decide) (.inl (Nat.zero_le _))

end

/-- The root of an epoch with given content, committing to the roots published before it. -/
def publishRoot (digest : Digest) (content : UInt64 → MerkleRoot) : Nat → UInt64 → MerkleRoot
  | 0, e => { content e with epoch := e, backPointers := pointersHash digest [] }
  | n + 1, e => { content e with
      epoch := e
      backPointers := pointersHash digest ((merkleBackpointerSequence e).map fun t =>
        (t, rootHash digest (publishRoot digest content n t))) }

theorem backpointers_lt {e t : UInt64} (ht : t ∈ merkleBackpointerSequence e) :
    t.toNat < e.toNat := by
  rw [merkleBackpointerSequence_eq, MerkleStore.mem_backPointerSequence] at ht
  exact (MerkleStore.epochPointers_bounds ht).2

theorem backpointers_zero {e : UInt64} (h : e.toNat = 0) : merkleBackpointerSequence e = [] :=
  List.eq_nil_iff_forall_not_mem.mpr fun t ht => by
    have := backpointers_lt ht
    omega

variable (content : UInt64 → MerkleRoot)

/-- As many turns as the epoch has numbers below it are enough, and more change nothing. -/
theorem publishRoot_stable (n m : Nat) (e : UInt64) (hn : e.toNat ≤ n) (hm : e.toNat ≤ m) :
    publishRoot digest content n e = publishRoot digest content m e := by
  induction n generalizing m e with
  | zero =>
    cases m with
    | zero => rfl
    | succ m => rw [publishRoot, publishRoot, backpointers_zero (by omega), List.map_nil]
  | succ n ih =>
    cases m with
    | zero => rw [publishRoot, publishRoot, backpointers_zero (by omega), List.map_nil]
    | succ m =>
      have hturn : (merkleBackpointerSequence e).map (fun t =>
          (t, rootHash digest (publishRoot digest content n t))) =
          (merkleBackpointerSequence e).map (fun t =>
            (t, rootHash digest (publishRoot digest content m t))) := by
        refine List.map_congr_left fun t ht => ?_
        have hlt := backpointers_lt ht
        rw [ih m t (by omega) (by omega)]
      rw [publishRoot, publishRoot, hturn]

/-- The history of roots published with content that can be hashed. -/
def History.ofContent
    (hhashable : ∀ e pointers, Hashable { content e with epoch := e, backPointers := pointers }) :
    History digest where
  root := fun e => publishRoot digest content e.toNat e
  epoch_eq := by
    intro e _
    cases e.toNat <;> rfl
  hashable := by
    intro e _
    cases e.toNat <;> exact hhashable e _
  pointers_eq := by
    intro e hpos
    obtain ⟨n, hn⟩ : ∃ n, e.toNat = n + 1 := ⟨e.toNat - 1, by omega⟩
    rw [hn, publishRoot]
    simp only
    congr 1
    refine List.map_congr_left fun t ht => ?_
    have hlt := backpointers_lt ht
    rw [publishRoot_stable digest content n t.toNat t (by omega) (le_refl _)]

/-- The history of roots published with given content, without extensions. -/
def History.publish (hplain : ∀ e, (content e).extensions = []) : History digest :=
  History.ofContent digest content fun e _ => hashable_of_plain (hplain e)

end

/-- The content of the sample history: no time passes and the tree stays empty. -/
def sampleContent (e : UInt64) : MerkleRoot :=
  ⟨e, 0, .replicate 32 0, .replicate 32 0, ⟨1, .replicate 32 0⟩, []⟩

/-- A history under the real hash function. -/
def sampleHistory : History Sha512.hash256 := History.publish _ sampleContent (fun _ => rfl)

theorem sampleHistory_plain (e : UInt64) : (sampleHistory.root e).extensions = [] := by
  show (publishRoot Sha512.hash256 sampleContent e.toNat e).extensions = []
  cases e.toNat <;> rfl

/-- A client that has seen the root of one epoch of the sample history. -/
def samplePin (epoch : UInt64) : VerifiedMerkleRoot where
  epoch := epoch
  rootHash := sampleHistory.hash epoch
  rootBytes := (sampleHistory.root epoch).bytes
  evidence := .signedBootstrap []
  authenticatedRoots := [⟨epoch, sampleHistory.hash epoch, none⟩]

end Foks.Verify
