/-
  Ledgers that forget.

  A ledger holds the keys it has seen, each for one account. To stay small it removes old keys, and
  to never take a removed key again it keeps a mark for each account: a removed key was issued below
  the mark, a new key is issued at the mark or above, and the mark never goes down. So a key is
  entered at most once (`Watermarked.not_present_again`).

  For a ledger that is a table of rows, `LedgerEffect` says this of one change of the table, and the
  usual changes have it: writing a mark, inserting a row, removing rows and updating them.
-/
import Mathlib.Logic.Relation
import Foks.Lib.Table

namespace Foks.Lib

open Relation

section

variable {σ α κ : Type} (step : σ → σ → Prop) (inv : σ → Prop) (present : σ → α → κ → Prop)
  (mark : σ → α → Nat) (issued : κ → Nat)

/-- The steps of a ledger with a mark for each account. -/
structure Watermarked : Prop where
  keeps : ∀ {s s'}, step s s' → inv s → inv s'
  mark_le : ∀ {s s'}, step s s' → inv s → ∀ a, mark s a ≤ mark s' a
  removed : ∀ {s s'}, step s s' → inv s → ∀ {a k}, present s a k → ¬ present s' a k →
    issued k < mark s' a
  inserted : ∀ {s s'}, step s s' → inv s → ∀ {a k}, ¬ present s a k → present s' a k →
    mark s a ≤ issued k

/-- The key is not there and can not be entered. -/
def Spent (s : σ) (a : α) (k : κ) : Prop := ¬ present s a k ∧ issued k < mark s a

end

namespace Watermarked

variable {σ α κ : Type} {step : σ → σ → Prop} {inv : σ → Prop} {present : σ → α → κ → Prop}
  {mark : σ → α → Nat} {issued : κ → Nat} (h : Watermarked step inv present mark issued)
  {s s' : σ} {a : α} {k : κ}

include h

theorem inv_run (hrun : ReflTransGen step s s') (hinv : inv s) : inv s' := by
  induction hrun with
  | refl => exact hinv
  | tail _ hstep ih => exact h.keeps hstep ih

theorem spent_step (hstep : step s s') (hinv : inv s) (hspent : Spent present mark issued s a k) :
    Spent present mark issued s' a k := by
  obtain ⟨habsent, hlt⟩ := hspent
  refine ⟨fun hpresent => ?_, Nat.lt_of_lt_of_le hlt (h.mark_le hstep hinv a)⟩
  exact absurd hlt (Nat.not_lt.mpr (h.inserted hstep hinv habsent hpresent))

theorem spent_run (hrun : ReflTransGen step s s') (hinv : inv s)
    (hspent : Spent present mark issued s a k) : Spent present mark issued s' a k := by
  induction hrun with
  | refl => exact hspent
  | tail hrun hstep ih => exact h.spent_step hstep (h.inv_run hrun hinv) ih

/-- A key that was there is still there, or it is spent. -/
theorem present_or_spent (hrun : ReflTransGen step s s') (hinv : inv s) (hpresent : present s a k) :
    present s' a k ∨ Spent present mark issued s' a k := by
  induction hrun with
  | refl => exact .inl hpresent
  | tail hrun hstep ih =>
    rename_i mid last
    have hmid := h.inv_run hrun hinv
    rcases ih with hmem | hspent
    · by_cases hlast : present last a k
      · exact .inl hlast
      · exact .inr ⟨hlast, h.removed hstep hmid hmem hlast⟩
    · exact .inr (h.spent_step hstep hmid hspent)

/-- A key that was removed does not come back. -/
theorem not_present_again {s'' : σ} (hrun : ReflTransGen step s s') (hinv : inv s)
    (hpresent : present s a k) (hremoved : ¬ present s' a k) (hrest : ReflTransGen step s' s'') :
    ¬ present s'' a k := by
  have hspent := (h.present_or_spent hrun hinv hpresent).resolve_left hremoved
  exact (h.spent_run hrest (h.inv_run hrun hinv) hspent).1

end Watermarked

/-! ## Tables of rows -/

section Rows

variable {ρ α κ η : Type} (account : ρ → α) (key : ρ → κ) (hash : κ → η) (issued : κ → Nat)

/-- The key has a row of the account. -/
def Entered (rows : List ρ) (a : α) (k : κ) : Prop := ∃ row ∈ rows, account row = a ∧ key row = k

/-- A change of the table: marks go up only, what is removed falls below its mark, and what is new
    was above it. Rows have different hashes. -/
structure LedgerEffect (rows rows' : List ρ) (mark mark' : α → Nat) : Prop where
  keeps : Keyed (fun row => hash (key row)) rows'
  mark_le : ∀ a, mark a ≤ mark' a
  removed : ∀ {a k}, Entered account key rows a k → ¬ Entered account key rows' a k →
    issued k < mark' a
  inserted : ∀ {a k}, ¬ Entered account key rows a k → Entered account key rows' a k →
    mark a ≤ issued k

variable {account key hash issued} {rows rows' : List ρ} {mark mark' : α → Nat}

/-- A key that no row is found under has no row. -/
theorem not_entered_of_find? [DecidableEq η] {k : κ}
    (h : rows.find? (fun row => hash (key row) = hash k) = none) (a : α) :
    ¬ Entered account key rows a k := by
  rintro ⟨row, hrow, -, rfl⟩
  exact List.find?_eq_none.mp h row hrow (decide_eq_true rfl)

theorem LedgerEffect.of_entered (hkeyed : Keyed (fun row => hash (key row)) rows')
    (hmark : ∀ a, mark a ≤ mark' a)
    (hentered : ∀ a k, Entered account key rows' a k ↔ Entered account key rows a k) :
    LedgerEffect account key hash issued rows rows' mark mark' := by
  refine ⟨hkeyed, hmark, ?_, ?_⟩
  · intro a k hmem hnot
    exact absurd ((hentered a k).mpr hmem) hnot
  · intro a k hnot hmem
    exact absurd ((hentered a k).mp hmem) hnot

theorem LedgerEffect.of_rows (hkeyed : Keyed (fun row => hash (key row)) rows)
    (hmark : ∀ a, mark a ≤ mark' a) :
    LedgerEffect account key hash issued rows rows mark mark' :=
  .of_entered hkeyed hmark fun _ _ => Iff.rfl

/-- Rows are updated in place, with their account and key. -/
theorem LedgerEffect.of_map (hkeyed : Keyed (fun row => hash (key row)) rows) (update : ρ → ρ)
    (hkeeps : ∀ row, account (update row) = account row ∧ key (update row) = key row)
    (hmark : ∀ a, mark a ≤ mark' a) :
    LedgerEffect account key hash issued rows (rows.map update) mark mark' := by
  refine .of_entered ?_ hmark fun a k => ⟨?_, ?_⟩
  · show ((rows.map update).map _).Nodup
    rw [List.map_map]
    have hsame : ((fun row => hash (key row)) ∘ update) = fun row => hash (key row) := by
      funext row
      show hash (key (update row)) = hash (key row)
      rw [(hkeeps row).2]
    rw [hsame]
    exact hkeyed
  · rintro ⟨row, hrow, rfl, rfl⟩
    obtain ⟨old, hold, rfl⟩ := List.mem_map.mp hrow
    exact ⟨old, hold, (hkeeps old).1.symm, (hkeeps old).2.symm⟩
  · rintro ⟨row, hrow, rfl, rfl⟩
    exact ⟨update row, List.mem_map_of_mem hrow, (hkeeps row).1, (hkeeps row).2⟩

/-- A row that is issued at the mark of its account or later is entered. -/
theorem LedgerEffect.of_insert {row : ρ} (hkeyed : Keyed (fun row => hash (key row)) rows)
    (hfresh : ∀ other ∈ rows, hash (key other) ≠ hash (key row)) (hmark : ∀ a, mark a ≤ mark' a)
    (hissued : mark (account row) ≤ issued (key row)) :
    LedgerEffect account key hash issued rows (rows ++ [row]) mark mark' := by
  refine ⟨?_, hmark, ?_, ?_⟩
  · refine hkeyed.append (keyed_singleton row) fun new hnew => ?_
    rw [List.mem_singleton.mp hnew]
    exact hfresh
  · rintro a k ⟨other, hother, hof⟩ hnot
    exact absurd ⟨other, List.mem_append_left _ hother, hof⟩ hnot
  · rintro a k hnot ⟨other, hother, haccount, hkey⟩
    rcases List.mem_append.mp hother with hother | hother
    · exact absurd ⟨other, hother, haccount, hkey⟩ hnot
    · rw [List.mem_singleton.mp hother] at haccount hkey
      rw [← haccount, ← hkey]
      exact hissued

/-- Rows are removed by their hash, and the mark is above each of them. -/
theorem LedgerEffect.of_remove [DecidableEq η] {pruned : List ρ}
    (hkeyed : Keyed (fun row => hash (key row)) rows) (hpruned : ∀ row ∈ pruned, row ∈ rows)
    (hmark : ∀ a, mark a ≤ mark' a)
    (hissued : ∀ row ∈ pruned, issued (key row) < mark' (account row)) :
    LedgerEffect account key hash issued rows
      (rows.filter fun row => !pruned.any fun other => hash (key other) = hash (key row))
      mark mark' := by
  refine ⟨List.Nodup.sublist (List.filter_sublist.map _) hkeyed, hmark, ?_, ?_⟩
  · rintro a k ⟨row, hrow, rfl, rfl⟩ hnot
    have hany : (pruned.any fun other => decide (hash (key other) = hash (key row))) = true := by
      by_contra hkept
      exact hnot ⟨row, List.mem_filter.mpr ⟨hrow, by simpa using hkept⟩, rfl, rfl⟩
    obtain ⟨other, hother, hhash⟩ := List.any_eq_true.mp hany
    have hsame : other = row := hkeyed.eq (hpruned other hother) hrow (of_decide_eq_true hhash)
    rw [← hsame]
    exact hissued other hother
  · rintro a k hnot ⟨row, hrow, hof⟩
    exact absurd ⟨row, (List.mem_filter.mp hrow).1, hof⟩ hnot

end Rows

end Foks.Lib
