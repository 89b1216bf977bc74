/-
  Path-compressed binary tries.

  A key is seen through its bits, `bit : κ → Nat → Bool`. A fork of the trie skips `count` bits
  on which all keys below it agree with a sample key, and branches on the next one. `WF` says
  that the forks tile the bits of every key from `start` on; under it a key is found, if at all,
  by following its own bits (`WF.mem_fork_iff`), and no key occurs twice (`WF.nodup_keys`).

  The last section is about sorted entries: an order that reads the bits from the front splits
  at the first bit on which the entries differ (`sorted_split`).
-/
import Mathlib.Data.List.TakeWhile
import Mathlib.Tactic

namespace Foks.Lib

variable {κ ν : Type}

/-- The keys have the same bits from `lo` up to and excluding `hi`. -/
def AgreeOn (bit : κ → Nat → Bool) (lo hi : Nat) (a b : κ) : Prop :=
  ∀ i, lo ≤ i → i < hi → bit a i = bit b i

section Agree

variable {bit : κ → Nat → Bool} {lo mid hi : Nat} {a b c : κ}

theorem AgreeOn.refl (a : κ) : AgreeOn bit lo hi a a := fun _ _ _ => rfl

theorem AgreeOn.symm (h : AgreeOn bit lo hi a b) : AgreeOn bit lo hi b a :=
  fun i hlo hhi => (h i hlo hhi).symm

theorem AgreeOn.trans (h : AgreeOn bit lo hi a b) (h' : AgreeOn bit lo hi b c) :
    AgreeOn bit lo hi a c := fun i hlo hhi => (h i hlo hhi).trans (h' i hlo hhi)

theorem AgreeOn.append (h : AgreeOn bit lo mid a b) (h' : AgreeOn bit mid hi a b) :
    AgreeOn bit lo hi a b := by
  intro i hlo hhi
  by_cases hi' : i < mid
  · exact h i hlo hi'
  · exact h' i (by omega) hhi

theorem AgreeOn.snoc (h : AgreeOn bit lo hi a b) (h' : bit a hi = bit b hi) :
    AgreeOn bit lo (hi + 1) a b := by
  intro i hlo hhi
  rcases Nat.lt_succ_iff_lt_or_eq.mp hhi with hlt | rfl
  · exact h i hlo hlt
  · exact h'

end Agree

/-! ## Tries -/

/-- A trie with at least one entry. -/
inductive Trie (κ ν : Type) where
  | leaf (key : κ) (value : ν)
  /-- Skips the bits `start .. start + count` of `sample` and branches on the next one. -/
  | fork (start count : Nat) (sample : κ) (left right : Trie κ ν)

namespace Trie

/-- The entries from left to right. -/
def entries : Trie κ ν → List (κ × ν)
  | .leaf key value => [(key, value)]
  | .fork _ _ _ left right => left.entries ++ right.entries

theorem entries_ne_nil (t : Trie κ ν) : t.entries ≠ [] := by
  induction t with
  | leaf key value => simp [entries]
  | fork start count sample left right ihl ihr => simp [entries, ihl]

/-- A fork that stands at bit `start` and tells its two sides apart. -/
structure Fork (bit : κ → Nat → Bool) (width start s count : Nat) (sample : κ)
    (left right : List (κ × ν)) : Prop where
  start_eq : s = start
  branch_lt : start + count < width
  agree : ∀ e ∈ left ++ right, AgreeOn bit start (start + count) sample e.1
  left_bit : ∀ e ∈ left, bit e.1 (start + count) = false
  right_bit : ∀ e ∈ right, bit e.1 (start + count) = true

/-- Well-formed from bit `start` on, for keys of `width` bits. -/
def WF (bit : κ → Nat → Bool) (width : Nat) : Nat → Trie κ ν → Prop
  | _, .leaf _ _ => True
  | start, .fork s count sample left right =>
    Fork bit width start s count sample left.entries right.entries ∧
      left.WF bit width (start + count + 1) ∧ right.WF bit width (start + count + 1)

variable {bit : κ → Nat → Bool} {width start s count : Nat} {sample : κ} {left right : Trie κ ν}

/-- Below a fork a key is found by its own bits: they agree with the skipped ones, and the next
    one tells the side. -/
theorem Fork.mem_iff {ls rs : List (κ × ν)}
    (h : Fork bit width start s count sample ls rs) (k : κ) (v : ν) :
    (k, v) ∈ ls ++ rs ↔ AgreeOn bit start (start + count) sample k ∧
      (k, v) ∈ if bit k (start + count) then rs else ls := by
  constructor
  · intro hmem
    refine ⟨h.agree _ hmem, ?_⟩
    rcases List.mem_append.mp hmem with hl | hr
    · rwa [if_neg (by simpa using h.left_bit _ hl)]
    · rwa [if_pos (h.right_bit _ hr)]
  · rintro ⟨-, hmem⟩
    split at hmem
    · exact List.mem_append_right _ hmem
    · exact List.mem_append_left _ hmem

theorem WF.mem_fork_iff (h : (Trie.fork s count sample left right).WF bit width start)
    (k : κ) (v : ν) :
    (k, v) ∈ (Trie.fork s count sample left right).entries ↔
      AgreeOn bit start (start + count) sample k ∧
        (k, v) ∈ (if bit k (start + count) then right else left).entries := by
  rw [entries, h.1.mem_iff]
  split <;> rfl

/-- The branch bit tells the entries of the two sides apart. -/
theorem WF.sides_differ (h : (Trie.fork s count sample left right).WF bit width start)
    {l r : κ × ν} (hl : l ∈ left.entries) (hr : r ∈ right.entries) :
    bit l.1 (start + count) ≠ bit r.1 (start + count) := by
  rw [h.1.left_bit l hl, h.1.right_bit r hr]
  exact Bool.false_ne_true

theorem WF.nodup_keys {t : Trie κ ν} (h : t.WF bit width start) :
    (t.entries.map Prod.fst).Nodup := by
  induction t generalizing start with
  | leaf key value => simp [entries]
  | fork s count sample left right ihl ihr =>
    rw [entries, List.map_append]
    refine List.Nodup.append (ihl h.2.1) (ihr h.2.2) ?_
    intro k hkl hkr
    obtain ⟨e, he, rfl⟩ := List.mem_map.mp hkl
    obtain ⟨e', he', heq⟩ := List.mem_map.mp hkr
    exact h.sides_differ he he' (by rw [heq])

section Fork

variable (h : (Trie.fork s count sample left right).WF bit width start)
include h

/-- A fork has entries with different keys. -/
theorem WF.not_subset_singleton
    (e : κ × ν) : ¬ (Trie.fork s count sample left right).entries ⊆ [e] := by
  intro hsub
  obtain ⟨l, hl⟩ := List.exists_mem_of_ne_nil _ left.entries_ne_nil
  obtain ⟨r, hr⟩ := List.exists_mem_of_ne_nil _ right.entries_ne_nil
  have hle := List.mem_singleton.mp (hsub (List.mem_append_left _ hl))
  have hre := List.mem_singleton.mp (hsub (List.mem_append_right _ hr))
  exact h.sides_differ hl hr (by rw [hle, hre])

variable {s' count' : Nat} {sample' : κ} {left' right' : Trie κ ν}

/-- A fork tells two of its entries apart at its branch, so no fork with these entries skips it. -/
theorem WF.count_le (h' : (Trie.fork s' count' sample' left' right').WF bit width start)
    (hsub : (Trie.fork s count sample left right).entries ⊆
      (Trie.fork s' count' sample' left' right').entries) : count' ≤ count := by
  obtain ⟨l, hl⟩ := List.exists_mem_of_ne_nil _ left.entries_ne_nil
  obtain ⟨r, hr⟩ := List.exists_mem_of_ne_nil _ right.entries_ne_nil
  by_contra hlt
  have hskipped (e : κ × ν) (he : e ∈ left.entries ++ right.entries) :
      bit sample' (start + count) = bit e.1 (start + count) :=
    h'.1.agree e (hsub he) (start + count) (by omega) (by omega)
  exact h.sides_differ hl hr ((hskipped l (List.mem_append_left _ hl)).symm.trans
    (hskipped r (List.mem_append_right _ hr)))

theorem WF.sides_subset (h' : (Trie.fork s' count sample' left' right').WF bit width start)
    (hsub : (Trie.fork s count sample left right).entries ⊆
      (Trie.fork s' count sample' left' right').entries) :
    left.entries ⊆ left'.entries ∧ right.entries ⊆ right'.entries := by
  constructor
  · intro e he
    rcases List.mem_append.mp (hsub (List.mem_append_left _ he)) with hl | hr
    · exact hl
    · exact absurd ((h'.1.right_bit e hr).symm.trans (h.1.left_bit e he)) nofun
  · intro e he
    rcases List.mem_append.mp (hsub (List.mem_append_right _ he)) with hl | hr
    · exact absurd ((h'.1.left_bit e hl).symm.trans (h.1.right_bit e he)) nofun
    · exact hr

end Fork

end Trie

/-! ## Sorted entries -/

theorem take_length_takeWhile (p : κ × ν → Bool) (es : List (κ × ν)) :
    es.take (es.takeWhile p).length = es.takeWhile p := by
  have h := es.takeWhile_append_dropWhile (p := p)
  have htake := @List.take_left _ (es.takeWhile p) (es.dropWhile p)
  rwa [h] at htake

theorem drop_length_takeWhile (p : κ × ν → Bool) (es : List (κ × ν)) :
    es.drop (es.takeWhile p).length = es.dropWhile p := by
  have h := es.takeWhile_append_dropWhile (p := p)
  have hdrop := @List.drop_left _ (es.takeWhile p) (es.dropWhile p)
  rwa [h] at hdrop

/-- Entries whose branch bits are in order split into those without and those with the bit. -/
theorem sorted_split {p : κ × ν → Bool} {es : List (κ × ν)}
    (h : es.Pairwise fun a b => p b = true → p a = true) :
    ∀ e ∈ es.dropWhile p, p e = false := by
  induction es with
  | nil => simp
  | cons e es ih =>
    obtain ⟨hhead, htail⟩ := List.pairwise_cons.mp h
    by_cases hp : p e = true
    · rw [List.dropWhile_cons_of_pos hp]
      exact ih htail
    · rw [List.dropWhile_cons_of_neg hp]
      intro e' he'
      rcases List.mem_cons.mp he' with rfl | hmem
      · simpa using hp
      · cases hpe : p e' with
        | false => rfl
        | true => exact absurd (hhead e' hmem hpe) hp

end Foks.Lib
