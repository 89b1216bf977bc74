/-
  Tables with a key, as lists of rows.

  `insertRow` is an `INSERT` under a primary key: it is refused when the key is taken.
  `insertExact` is an `INSERT … ON CONFLICT DO UPDATE … WHERE` the row is the same: it is refused
  when the key is taken by another row. `insertRows` and `insertExacts` insert a list of rows one
  after the other. `upsertRow` is an `INSERT … ON CONFLICT DO UPDATE`: it takes the place of a row
  with its key, so that the keys stay different (`Keyed`), and with different keys a row is found by
  its key (`Keyed.eq`).
-/
import Mathlib.Data.List.Nodup
import Foks.Lib.Outcome

namespace Foks.Lib

variable {ρ κ : Type} (key : ρ → κ)

/-- No two rows have the same key. -/
def Keyed (rows : List ρ) : Prop := (rows.map key).Nodup

variable {rows : List ρ}

section

variable {key}

theorem Keyed.eq (h : Keyed key rows) {a b : ρ} (ha : a ∈ rows) (hb : b ∈ rows)
    (hkey : key a = key b) : a = b := List.inj_on_of_nodup_map h ha hb hkey

theorem Keyed.append {new : List ρ} (h : Keyed key rows) (hnew : Keyed key new)
    (hfresh : ∀ row ∈ new, ∀ other ∈ rows, key other ≠ key row) : Keyed key (rows ++ new) := by
  rw [Keyed, List.map_append, List.nodup_append]
  refine ⟨h, hnew, ?_⟩
  rintro _ ha _ hb
  obtain ⟨other, hother, rfl⟩ := List.mem_map.mp ha
  obtain ⟨row, hrow, rfl⟩ := List.mem_map.mp hb
  exact hfresh row hrow other hother

theorem keyed_nil : Keyed key [] := List.nodup_nil

theorem keyed_singleton (row : ρ) : Keyed key [row] := List.nodup_singleton _

end

variable [DecidableEq κ]

def insertRow (rows : List ρ) (row : ρ) : Option (List ρ) :=
  if rows.any fun other => key other = key row then none else some (rows ++ [row])

def insertRows (rows new : List ρ) : Option (List ρ) := new.foldlM (insertRow key) rows

def upsertRow (rows : List ρ) (row : ρ) : List ρ :=
  (rows.filter fun other => key other ≠ key row) ++ [row]

def insertExact [DecidableEq ρ] (rows : List ρ) (row : ρ) : Option (List ρ) :=
  match rows.find? fun other => key other = key row with
  | some other => if other = row then some rows else none
  | none => some (rows ++ [row])

def insertExacts [DecidableEq ρ] (rows new : List ρ) : Option (List ρ) :=
  new.foldlM (insertExact key) rows

variable {key}

/-! ## Inserting -/

variable {row : ρ}

theorem insertRow_eq_some {rows' : List ρ} : insertRow key rows row = some rows' ↔
      (∀ other ∈ rows, key other ≠ key row) ∧ rows' = rows ++ [row] := by
  unfold insertRow
  simp only [List.any_eq_true, decide_eq_true_eq]
  constructor
  · intro h
    split at h
    · cases h
    · rename_i hfresh
      cases h
      exact ⟨fun other hother hkey => hfresh ⟨other, hother, hkey⟩, rfl⟩
  · rintro ⟨hfresh, rfl⟩
    rw [if_neg]
    rintro ⟨other, hother, hkey⟩
    exact hfresh other hother hkey

theorem insertRows_eq_some {rows' new : List ρ} (h : insertRows key rows new = some rows') :
    rows' = rows ++ new := by
  induction new generalizing rows with
  | nil =>
    cases h
    exact (List.append_nil _).symm
  | cons row new ih =>
    rw [insertRows, List.foldlM_cons] at h
    obtain ⟨mid, hmid, h⟩ := Option.bind_eq_some_iff.mp h
    obtain ⟨-, rfl⟩ := insertRow_eq_some.mp hmid
    rw [ih h, List.append_assoc, List.singleton_append]

/-! ## Replacing -/

/-- The row with a key is found in place of any other with that key. -/
theorem find?_upsertRow (k : κ) : (upsertRow key rows row).find? (fun other => key other = k) =
      if key row = k then some row else rows.find? fun other => key other = k := by
  rw [upsertRow, List.find?_append]
  split
  · rename_i hk
    subst hk
    have hnone : (rows.filter fun other => key other ≠ key row).find?
        (fun other => key other = key row) = none := by
      refine List.find?_eq_none.mpr fun other hother => ?_
      simpa using (List.mem_filter.mp hother).2
    rw [hnone]
    simp
  · rename_i hk
    have hsame (other : ρ) : (decide (key other ≠ key row) = true ∧ decide (key other = k) = true) ↔
        key other = k := by
      simp only [decide_eq_true_eq, and_iff_right_iff_imp]
      exact fun hother heq => hk (heq ▸ hother)
    rw [List.find?_filter]
    simp only [hsame, List.find?_singleton, hk, decide_false, Bool.false_eq_true, if_false,
      Option.or_none]

theorem mem_upsertRow {a : ρ} :
    a ∈ upsertRow key rows row ↔ a ∈ rows ∧ key a ≠ key row ∨ a = row := by
  simp [upsertRow]

theorem Keyed.upsertRow (h : Keyed key rows) : Keyed key (upsertRow key rows row) := by
  have hfilter : Keyed key (rows.filter fun other => key other ≠ key row) :=
    List.Nodup.sublist (List.filter_sublist.map key) h
  refine hfilter.append (keyed_singleton row) fun new hnew other hother => ?_
  rw [List.mem_singleton.mp hnew]
  simpa using (List.mem_filter.mp hother).2

/-- With different keys a row is found by its key. -/
theorem Keyed.find?_eq_some (h : Keyed key rows) {k : κ} :
    rows.find? (fun other => key other = k) = some row ↔ row ∈ rows ∧ key row = k := by
  constructor
  · intro hfind
    exact ⟨List.mem_of_find?_eq_some hfind, by simpa using List.find?_some hfind⟩
  · rintro ⟨hmem, rfl⟩
    cases hfind : rows.find? (fun other => key other = key row) with
    | none => exact absurd (List.find?_eq_none.mp hfind row hmem) (by simp)
    | some other =>
      have hkey : key other = key row := by simpa using List.find?_some hfind
      rw [h.eq (List.mem_of_find?_eq_some hfind) hmem hkey]

/-- The first rows that pass a check, in some order. -/
theorem mem_of_mem_take_mergeSort {p : ρ → Bool} {le : ρ → ρ → Bool} {limit : Nat}
    (h : row ∈ ((rows.filter p).mergeSort le).take limit) : row ∈ rows ∧ p row = true :=
  List.mem_filter.mp (List.mem_mergeSort.mp (List.mem_of_mem_take h))

/-! ## Rows that a search passes over -/

section

variable {α : Type}

theorem find?_erase_of_not [DecidableEq α] {p : α → Bool} {a : α} (ha : p a = false)
    (l : List α) : (l.erase a).find? p = l.find? p := by
  induction l with
  | nil => rfl
  | cons b l ih =>
    rw [List.erase_cons]
    split
    · rename_i hb
      rw [List.find?_cons_of_neg]
      rw [beq_iff_eq.mp hb, ha]
      simp
    · rw [List.find?_cons, List.find?_cons, ih]

theorem find?_map_replace [DecidableEq α] {p : α → Bool} {a b : α} (ha : p a = false)
    (hb : p b = false) (l : List α) :
    (l.map fun c => if c = a then b else c).find? p = l.find? p := by
  induction l with
  | nil => rfl
  | cons c l ih =>
    rw [List.map_cons, List.find?_cons, List.find?_cons, ih]
    by_cases hc : c = a
    · rw [if_pos hc, hb, hc, ha]
    · rw [if_neg hc]

theorem map_replace_self [DecidableEq α] (a : α) (l : List α) :
    (l.map fun c => if c = a then a else c) = l := by
  refine (List.map_congr_left fun c _ => ?_).trans (List.map_id l)
  split
  · rename_i hc
    rw [hc]
    rfl
  · rfl

end

end Foks.Lib
