/-
  Reading a sorted list page by page.

  A reader follows each full page from its last row and stops at the first page that is shorter. If
  the rows have different keys, and a page from a row holds the first rows with a greater key, the
  pages together are the list (`followPages_eq`): after the last row seen come exactly the rows that
  were not seen.
-/
import Mathlib.Data.List.Sort
import Mathlib.Order.Defs.LinearOrder

namespace Foks.Lib

variable {ρ γ κ : Type}

/-- The rows of the pages up to the first short one, if they are read within the fuel. -/
def followPages (cursorOf : ρ → γ) (fetch : Option γ → Option (List ρ)) (limit : Nat) :
    Nat → Option γ → Option (List ρ)
  | 0, _ => none
  | fuel + 1, cursor => do
    let page ← fetch cursor
    if page.length < limit then some page
    else
      match page.getLast? with
      | none => some page
      | some row => (followPages cursorOf fetch limit fuel (some (cursorOf row))).map (page ++ ·)

variable [LinearOrder κ] {key : ρ → κ}

theorem pairwise_insertionSort_key [DecidableRel fun a b : ρ => key a ≤ key b] (rows : List ρ) :
    (rows.insertionSort fun a b => key a ≤ key b).Pairwise fun a b => key a ≤ key b := by
  have htotal : Std.Total fun a b : ρ => key a ≤ key b := ⟨fun a b => le_total (key a) (key b)⟩
  have htrans : IsTrans ρ fun a b => key a ≤ key b := ⟨fun _ _ _ hab hbc => le_trans hab hbc⟩
  exact List.pairwise_insertionSort _ rows

variable {rows : List ρ} {limit : Nat}

/-- Of a sorted list a page holds the rows up to each of its rows, but for rows with the same
    key. -/
theorem mem_take_of_le (hsorted : rows.Pairwise fun a b => key a ≤ key b) {taken row : ρ}
    (htaken : taken ∈ rows.take limit) (hrow : row ∈ rows) (hle : key row ≤ key taken) :
    row ∈ rows.take limit ∨ key row = key taken := by
  rw [← List.take_append_drop limit rows] at hrow hsorted
  rcases List.mem_append.mp hrow with hrow | hrow
  · exact .inl hrow
  · have hcross := (List.pairwise_append.mp hsorted).2.2 taken htaken row hrow
    exact .inr (le_antisymm hle hcross)

/-- Of a strictly sorted list the rows after the last one seen are those not seen. -/
theorem filter_after_last {init rest : List ρ} {last : ρ}
    (hsorted : (init ++ [last] ++ rest).Pairwise fun a b => key a < key b) :
    ((init ++ [last] ++ rest).filter fun row => key last < key row) = rest := by
  obtain ⟨hseen, -, hcross⟩ := List.pairwise_append.mp hsorted
  have hnone : (init ++ [last]).filter (fun row => key last < key row) = [] := by
    refine List.filter_eq_nil_iff.mpr fun row hrow => ?_
    rw [decide_eq_true_eq, not_lt]
    rcases List.mem_append.mp hrow with hrow | hrow
    · exact le_of_lt ((List.pairwise_append.mp hseen).2.2 row hrow last (by simp))
    · rw [List.mem_singleton.mp hrow]
  have hall : rest.filter (fun row => key last < key row) = rest := by
    refine List.filter_eq_self.mpr fun row hrow => ?_
    exact decide_eq_true (hcross last (by simp) row hrow)
  rw [List.filter_append, hnone, hall, List.nil_append]

variable {fetch : Option γ → Option (List ρ)} {cursorOf : ρ → γ}

/-- The pages from a cursor give what is left of the list after it. -/
theorem followPages_rest (hlimit : 0 < limit) (hsorted : rows.Pairwise fun a b => key a < key b)
    (hnext : ∀ row ∈ rows, fetch (some (cursorOf row)) =
      some ((rows.filter fun other => key row < key other).take limit)) {fuel : Nat}
    {seen rest : List ρ} {cursor : Option γ} (hrows : rows = seen ++ rest)
    (hpage : fetch cursor = some (rest.take limit)) (hfuel : rest.length < fuel) :
    followPages cursorOf fetch limit fuel cursor = some rest := by
  induction fuel generalizing seen rest cursor with
  | zero => omega
  | succ fuel ih =>
    rw [followPages, hpage, Option.bind_eq_bind, Option.bind_some]
    by_cases hshort : rest.length < limit
    · rw [List.take_of_length_le (Nat.le_of_lt hshort), if_pos hshort]
    · have hlen : (rest.take limit).length = limit := by
        rw [List.length_take]
        omega
      rw [if_neg (by omega)]
      -- a full page has a last row, and what it leaves is shorter
      obtain ⟨init, last, htake⟩ : ∃ init last, rest.take limit = init ++ [last] := by
        rcases List.eq_nil_or_concat' (rest.take limit) with hnil | hconcat
        · rw [hnil] at hlen
          exact absurd hlen (by simp; omega)
        · exact hconcat
      have hsplit : rows = (seen ++ init) ++ [last] ++ rest.drop limit := by
        rw [List.append_assoc seen, ← htake, List.append_assoc, List.take_append_drop, hrows]
      have hfetch : fetch (some (cursorOf last)) = some ((rest.drop limit).take limit) := by
        rw [hnext last (by rw [hsplit]; simp)]
        conv_lhs => rw [hsplit]
        rw [filter_after_last (hsplit ▸ hsorted)]
      have hih := ih hsplit hfetch (by rw [List.length_drop]; omega)
      rw [htake]
      simp only [List.getLast?_concat, hih, Option.map_some]
      rw [← htake, List.take_append_drop]

theorem followPages_eq (hlimit : 0 < limit) (hsorted : rows.Pairwise fun a b => key a < key b)
    (hfirst : fetch none = some (rows.take limit))
    (hnext : ∀ row ∈ rows, fetch (some (cursorOf row)) =
      some ((rows.filter fun other => key row < key other).take limit)) {fuel : Nat}
    (hfuel : rows.length < fuel) : followPages cursorOf fetch limit fuel none = some rows :=
  followPages_rest hlimit hsorted hnext (List.nil_append rows).symm hfirst hfuel

end Foks.Lib
