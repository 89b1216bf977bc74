/-
  The skip path between two epochs.

  The verifier's pointer sequence and walk are the store's, where the store's walk ends
  (`merkleBackpointerSequence_eq`, `merkleCollectRoots_eq`). `SkipPath latest pinned rest` says
  that the walk from `latest` down to `pinned` leaves `latest` first and `rest` after it; what a
  response has to answer is then `rest` and the pointers of all of them but `pinned`.
-/
import Foks.Verify.Advance

namespace Foks.Verify

open Foks.Lib
open Foks.MerkleStore (backPointerLoop backPointerSequence mem_backPointerSequence pathSiblings
  mem_pathSiblings descends visitPointers_fst EpochSet)

theorem merkleBackpointerLoop_eq (epoch : UInt64) (turns : Nat) (cursor : UInt64) :
    merkleBackpointerLoop epoch turns cursor = backPointerLoop epoch turns cursor := by
  induction turns generalizing cursor with
  | zero => rfl
  | succ turns ih => rw [merkleBackpointerLoop, backPointerLoop, ih]

theorem merkleBackpointerSequence_eq (epoch : UInt64) :
    merkleBackpointerSequence epoch = backPointerSequence epoch := by
  rw [merkleBackpointerSequence, backPointerSequence, merkleBackpointerLoop_eq]

/-- Where the store's walk ends, the verifier's walk takes the same turns: its stop for a walk
    that does not get lower never fires. -/
theorem collectLoop_eq_merkleCollectLoop {stop start : UInt64} {path : List UInt64}
    (hd : Descends UInt64.toNat backPointerSequence stop)
    (h : Descent UInt64.toNat backPointerSequence stop start path) (turns : Nat)
    (before : List UInt64) (roots siblings : EpochSet) (hturns : start.toNat ≤ turns) :
    MerkleStore.collectLoop stop turns start before roots siblings =
      some (merkleCollectLoop stop turns start before roots siblings) := by
  induction h generalizing turns before roots siblings with
  | @done start hle =>
    have hstop : ¬ start > stop := by
      rw [gt_iff_lt, UInt64.lt_iff_toNat_lt]
      omega
    cases turns with
    | zero => rw [MerkleStore.collectLoop, if_neg hstop, merkleCollectLoop]
    | succ turns => rw [MerkleStore.collectLoop, if_neg hstop, merkleCollectLoop, if_neg hstop]
  | @step start path hlt rest ih =>
    obtain ⟨-, -, hnext⟩ := hd.jump hlt
    obtain ⟨turns, rfl⟩ : ∃ n, turns = n + 1 := ⟨turns - 1, by omega⟩
    have hgt : start > stop := UInt64.lt_iff_toNat_lt.mpr hlt
    have hlower : ¬ lastAbove UInt64.toNat stop start (backPointerSequence start) ≥ start := by
      rw [ge_iff_le, UInt64.le_iff_toNat_le]
      omega
    rw [MerkleStore.collectLoop, if_pos hgt, merkleCollectLoop, if_pos hgt]
    simp only [merkleBackpointerSequence_eq, visitPointers_fst]
    rw [if_neg hlower, ih turns _ _ _ (by omega)]

theorem merkleCollectRoots_eq {stop start : UInt64} (hstop : 0 < stop.toNat) :
    MerkleStore.collectRoots start stop = some (merkleCollectRoots start stop) := by
  obtain ⟨path, hpath⟩ := (descends hstop).exists_descent start
  rw [MerkleStore.collectRoots,
    collectLoop_eq_merkleCollectLoop (descends hstop) hpath _ _ _ _ (le_refl _)]
  rfl

/-! ## Paths -/

/-- The walk from `latest` down to `pinned` leaves `latest`, then the epochs of `rest`. -/
structure SkipPath (latest pinned : UInt64) (rest : List UInt64) : Prop where
  pinned_pos : 0 < pinned.toNat
  lt : pinned.toNat < latest.toNat
  descent : Descent UInt64.toNat backPointerSequence pinned latest (latest :: rest)

theorem exists_skipPath {latest pinned : UInt64} (hpos : 0 < pinned.toNat)
    (hlt : pinned.toNat < latest.toNat) : ∃ rest, SkipPath latest pinned rest := by
  obtain ⟨path, hpath⟩ := (descends hpos).exists_descent latest
  cases hpath with
  | done hle => omega
  | step h rest => exact ⟨_, hpos, hlt, .step h rest⟩

namespace SkipPath

variable {latest pinned e : UInt64} {rest : List UInt64}

section

variable (h : SkipPath latest pinned rest)
include h

theorem collectRoots_eq :
    merkleCollectRoots latest pinned = (latest :: rest, pathSiblings (latest :: rest)) := by
  have hstore := MerkleStore.collectRoots_eq h.pinned_pos h.descent
  rw [merkleCollectRoots_eq h.pinned_pos] at hstore
  exact Option.some.inj hstore

/-- From epoch to epoch, and from the last one to the pin, there is a back pointer. -/
theorem linked :
    (latest :: rest ++ [pinned]).IsChain (fun a b => b ∈ merkleBackpointerSequence a) := by
  simp only [merkleBackpointerSequence_eq]
  exact (h.descent.linked (descends h.pinned_pos) (fun _ _ => UInt64.toNat_inj.mp) h.lt.le).1

theorem decreasing :
    (latest :: rest).Pairwise (fun a b => b.toNat < a.toNat) :=
  h.descent.decreasing (descends h.pinned_pos)

theorem bounds (he : e ∈ latest :: rest) : pinned.toNat < e.toNat ∧ e.toNat ≤ latest.toNat :=
  h.descent.mem_bounds (descends h.pinned_pos) he

theorem rest_lt (he : e ∈ rest) : e.toNat < latest.toNat :=
  (List.pairwise_cons.mp h.decreasing).1 e he

theorem nodup : (latest :: rest).Nodup :=
  h.decreasing.imp fun hlt heq => by rw [heq] at hlt; omega

end

/-- The hashes of a request: the pointers of the whole path but the pin itself. -/
def hashEpochs (latest pinned : UInt64) (rest : List UInt64) : List UInt64 :=
  (pathSiblings (latest :: rest)).filter (fun epoch => epoch ≠ pinned)

theorem mem_hashEpochs : e ∈ hashEpochs latest pinned rest ↔
      e ≠ pinned ∧ ∃ s ∈ latest :: rest, e ∈ merkleBackpointerSequence s := by
  rw [hashEpochs, List.mem_filter, mem_pathSiblings, decide_eq_true_eq, and_comm]
  simp only [merkleBackpointerSequence_eq]

theorem hashEpochs_nodup : (hashEpochs latest pinned rest).Nodup :=
  (MerkleStore.pathSiblings_nodup _).filter _

theorem pointer_bounds (h : SkipPath latest pinned rest) {s : UInt64} (hs : s ∈ latest :: rest)
    (he : e ∈ merkleBackpointerSequence s) : 0 < e.toNat ∧ e.toNat < latest.toNat := by
  rw [merkleBackpointerSequence_eq, mem_backPointerSequence] at he
  have hlt := MerkleStore.epochPointers_bounds he
  have := (h.bounds hs).2
  omega

theorem requirements_eq (h : SkipPath latest pinned rest) :
    merkleHistoryRequirements latest pinned = .ok ⟨rest, hashEpochs latest pinned rest⟩ := by
  have hpos := h.pinned_pos
  have hlt := h.lt
  have hne (a b : UInt64) (hab : a.toNat ≠ b.toNat) : ¬ a = b := fun heq => hab (by rw [heq])
  have hguards : ¬ (pinned = 0 ∨ latest = 0) := by
    rintro (rfl | rfl)
    · simp at hpos
    · simp at hlt
  have hroots : (latest :: rest).filter (fun e => e ≠ latest ∧ e ≠ pinned) = rest := by
    rw [List.filter_cons_of_neg (by simp), List.filter_eq_self]
    intro e he
    have hlow := (h.bounds (List.mem_cons_of_mem _ he)).1
    have hhigh := h.rest_lt he
    rw [decide_eq_true_eq]
    exact ⟨hne _ _ (by omega), hne _ _ (by omega)⟩
  have hhashes : (pathSiblings (latest :: rest)).filter (fun e => e ≠ latest ∧ e ≠ pinned) =
      hashEpochs latest pinned rest := by
    refine List.filter_congr fun e he => ?_
    obtain ⟨s, hs, hes⟩ := mem_pathSiblings.mp he
    rw [← merkleBackpointerSequence_eq] at hes
    have hb := (h.pointer_bounds hs hes).2
    simp only [hne e latest (by omega), ne_eq, not_false_eq_true, true_and]
  rw [merkleHistoryRequirements, if_neg hguards, if_neg (by
    rw [UInt64.lt_iff_toNat_lt]; omega), if_neg (hne _ _ (by omega)), h.collectRoots_eq]
  simp only
  rw [hroots, hhashes]

end SkipPath

end Foks.Verify
