/-
  Sorted maps filled entry by entry.

  `insertEach m es` inserts the entries `es` into `m` in order, as a loop over a `BTreeMap` does.
  When no key occurs twice, the order of the entries does not matter: a key is looked up among
  them first and in `m` otherwise (`getElem?_insertEach`). A map is what its own list of entries
  fills (`insertEach_toList`).
-/
import Mathlib.Tactic

namespace Foks.Lib

open Std

variable {κ ν : Type} [Ord κ] [TransOrd κ]

/-- The map after inserting the entries in order. -/
def insertEach (m : ExtTreeMap κ ν compare) (es : List (κ × ν)) : ExtTreeMap κ ν compare :=
  es.foldl (fun m e => m.insert e.1 e.2) m

@[simp] theorem insertEach_nil (m : ExtTreeMap κ ν compare) : insertEach m [] = m := rfl

@[simp] theorem insertEach_cons (m : ExtTreeMap κ ν compare) (e : κ × ν) (es : List (κ × ν)) :
    insertEach m (e :: es) = insertEach (m.insert e.1 e.2) es := rfl

theorem insertEach_append (m : ExtTreeMap κ ν compare) (es fs : List (κ × ν)) :
    insertEach m (es ++ fs) = insertEach (insertEach m es) fs := by
  simp [insertEach]

/-- Inserts entries one by one and fails at a key that is there already. -/
def insertNew {ε : Type} (error : ε) :
    List (κ × ν) → ExtTreeMap κ ν compare → Except ε (ExtTreeMap κ ν compare)
  | [], m => .ok m
  | (k, v) :: rest, m => if m.contains k then .error error else insertNew error rest (m.insert k v)

/-- Takes the values of the given keys out of the map, and fails at a key that is not there. -/
def removeEach {ε : Type} (error : ε) :
    List κ → ExtTreeMap κ ν compare → Except ε (List ν)
  | [], _ => .ok []
  | k :: rest, m =>
    match m[k]? with
    | none => .error error
    | some v => (removeEach error rest (m.erase k)).map (v :: ·)

/-- The values in the order of their keys (`into_values`). -/
def sortedValues (m : ExtTreeMap κ ν compare) : List ν := m.toList.map Prod.snd

variable [LawfulEqOrd κ] {m : ExtTreeMap κ ν compare} {es : List (κ × ν)}

theorem getElem?_insert_self_or (m : ExtTreeMap κ ν compare) (k a : κ) (v : ν) [DecidableEq κ] :
    (m.insert k v)[a]? = if k = a then some v else m[a]? := by
  rw [ExtTreeMap.getElem?_insert]
  simp only [Std.compare_eq_iff_eq]

/-- Lookup in a map that was filled with entries of distinct keys. -/
theorem getElem?_insertEach (h : (es.map Prod.fst).Nodup) (k : κ) (v : ν) :
    (insertEach m es)[k]? = some v ↔ (k, v) ∈ es ∨ (k ∉ es.map Prod.fst ∧ m[k]? = some v) := by
  classical
  induction es generalizing m with
  | nil => simp
  | cons e es ih =>
    obtain ⟨key, value⟩ := e
    rw [List.map_cons, List.nodup_cons] at h
    rw [insertEach_cons, ih h.2, getElem?_insert_self_or]
    by_cases hk : key = k
    · subst hk
      have hnot : (key, v) ∉ es := fun hmem => h.1 (List.mem_map.mpr ⟨_, hmem, rfl⟩)
      simp [h.1, hnot, eq_comm]
    · have hk' : ¬ k = key := fun heq => hk heq.symm
      simp [hk, hk']

/-- What is found after filling is an entry or was there before. -/
theorem getElem?_insertEach_cases {k : κ} {v : ν} (h : (insertEach m es)[k]? = some v) :
    (k, v) ∈ es ∨ m[k]? = some v := by
  classical
  induction es generalizing m with
  | nil => exact .inr h
  | cons e es ih =>
    rcases ih h with hmem | hm
    · exact .inl (List.mem_cons_of_mem _ hmem)
    · rw [getElem?_insert_self_or] at hm
      split at hm
      · rename_i hk
        cases hm
        exact .inl (List.mem_cons.mpr (.inl (Prod.ext hk.symm rfl)))
      · exact .inr hm

theorem nodup_keys_toList (m : ExtTreeMap κ ν compare) : (m.toList.map Prod.fst).Nodup := by
  rw [List.nodup_iff_pairwise_ne, List.pairwise_map]
  refine (@ExtTreeMap.distinct_keys_toList _ _ _ m _).imp fun hne heq => ?_
  exact hne (Std.compare_eq_iff_eq.mpr heq)

theorem eq_of_mem_toList {m' : ExtTreeMap κ ν compare}
    (h : ∀ (k : κ) (v : ν), m[k]? = some v ↔ m'[k]? = some v) : m = m' :=
  ExtTreeMap.ext_getElem? fun k => Option.ext fun v => h k v

theorem insertEach_toList (m : ExtTreeMap κ ν compare) : insertEach ∅ m.toList = m := by
  refine eq_of_mem_toList fun k v => ?_
  rw [getElem?_insertEach (nodup_keys_toList m), ExtTreeMap.mem_toList_iff_getElem?_eq_some]
  simp

theorem mem_sortedValues {v : ν} : v ∈ sortedValues m ↔ ∃ k : κ, m[k]? = some v := by
  simp only [sortedValues, List.mem_map, Prod.exists, ExtTreeMap.mem_toList_iff_getElem?_eq_some]
  exact ⟨fun ⟨k, w, hk, hw⟩ => ⟨k, hw ▸ hk⟩, fun ⟨k, hk⟩ => ⟨k, v, hk, rfl⟩⟩

/-- Exactly one value passes a test exactly when it stands at the only key whose value does. -/
theorem filter_sortedValues_eq_singleton {p : ν → Bool} {v : ν} :
    (sortedValues m).filter p = [v] ↔ ∃ k : κ, m[k]? = some v ∧ p v ∧
      ∀ (k' : κ) (w : ν), m[k']? = some w → p w → k' = k := by
  have hmem (k : κ) (w : ν) : (k, w) ∈ m.toList.filter (p ∘ Prod.snd) ↔
      m[k]? = some w ∧ p w := by
    rw [List.mem_filter, ExtTreeMap.mem_toList_iff_getElem?_eq_some]
    rfl
  rw [sortedValues, List.filter_map, List.map_eq_singleton_iff]
  constructor
  · rintro ⟨⟨k, w⟩, hfilter, rfl⟩
    have hk := (hmem k w).mp (hfilter ▸ List.mem_singleton_self _)
    refine ⟨k, hk.1, hk.2, fun k' w' hw' hp => ?_⟩
    have hother := (hmem k' w').mpr ⟨hw', hp⟩
    rw [hfilter, List.mem_singleton] at hother
    exact congrArg Prod.fst hother
  · rintro ⟨k, hk, hp, honly⟩
    refine ⟨(k, v), List.perm_singleton.mp ?_, rfl⟩
    refine (List.perm_ext_iff_of_nodup ?_ (List.nodup_singleton _)).mpr fun ⟨k', w⟩ => ?_
    · exact (List.Nodup.of_map _ (nodup_keys_toList m)).filter _
    · rw [hmem, List.mem_singleton, Prod.mk.injEq]
      constructor
      · rintro ⟨hw, hpw⟩
        obtain rfl := honly k' w hw hpw
        exact ⟨rfl, Option.some.inj (hw.symm.trans hk)⟩
      · rintro ⟨rfl, rfl⟩
        exact ⟨hk, hp⟩

/-- The entries of a map that was filled from nothing. -/
theorem mem_toList_insertEach (h : (es.map Prod.fst).Nodup) (e : κ × ν) :
    e ∈ (insertEach (∅ : ExtTreeMap κ ν compare) es).toList ↔ e ∈ es := by
  obtain ⟨k, v⟩ := e
  rw [ExtTreeMap.mem_toList_iff_getElem?_eq_some, getElem?_insertEach h]
  simp

/-- Filling from the listings of two maps is filling from the entries they were filled with. -/
theorem insertEach_toList_append {fs : List (κ × ν)} (h : ((es ++ fs).map Prod.fst).Nodup) :
    (((insertEach (∅ : ExtTreeMap κ ν compare) es).toList ++
      (insertEach (∅ : ExtTreeMap κ ν compare) fs).toList).map Prod.fst).Nodup ∧
    insertEach ∅ ((insertEach (∅ : ExtTreeMap κ ν compare) es).toList ++
      (insertEach (∅ : ExtTreeMap κ ν compare) fs).toList) =
        (insertEach ∅ (es ++ fs) : ExtTreeMap κ ν compare) := by
  have hes : (es.map Prod.fst).Nodup := by
    rw [List.map_append] at h
    exact h.of_append_left
  have hfs : (fs.map Prod.fst).Nodup := by
    rw [List.map_append] at h
    exact h.of_append_right
  have hnodup : (((insertEach (∅ : ExtTreeMap κ ν compare) es).toList ++
      (insertEach (∅ : ExtTreeMap κ ν compare) fs).toList).map Prod.fst).Nodup := by
    rw [List.map_append] at h ⊢
    refine List.Nodup.append (nodup_keys_toList _) (nodup_keys_toList _) fun k hk hk' => ?_
    obtain ⟨e, he, rfl⟩ := List.mem_map.mp hk
    obtain ⟨f, hf, hfe⟩ := List.mem_map.mp hk'
    rw [mem_toList_insertEach hes] at he
    rw [mem_toList_insertEach hfs] at hf
    exact List.disjoint_of_nodup_append h (List.mem_map_of_mem he)
      (hfe ▸ List.mem_map_of_mem hf)
  refine ⟨hnodup, eq_of_mem_toList fun k v => ?_⟩
  rw [getElem?_insertEach hnodup, getElem?_insertEach h, List.mem_append, List.mem_append,
    mem_toList_insertEach hes, mem_toList_insertEach hfs]
  simp

theorem mem_insertEach_cases {k : κ} (h : k ∈ insertEach m es) : k ∈ es.map Prod.fst ∨ k ∈ m := by
  obtain ⟨v, hv⟩ := Option.isSome_iff_exists.mp (ExtTreeMap.isSome_getElem?_iff_mem.mpr h)
  refine (getElem?_insertEach_cases hv).imp (fun hmem => List.mem_map_of_mem hmem) fun hm => ?_
  rw [← ExtTreeMap.isSome_getElem?_iff_mem, hm]
  rfl

theorem nodup_toList (s : ExtTreeSet κ compare) : s.toList.Nodup :=
  ExtTreeSet.distinct_toList.imp fun hne heq => hne (Std.compare_eq_iff_eq.mpr heq)

theorem insertNew_ok {ε : Type} (error : ε) (hnodup : (es.map Prod.fst).Nodup)
    (hnew : ∀ e ∈ es, e.1 ∉ m) : insertNew error es m = .ok (insertEach m es) := by
  induction es generalizing m with
  | nil => rfl
  | cons e es ih =>
    obtain ⟨k, v⟩ := e
    rw [List.map_cons, List.nodup_cons] at hnodup
    have hk : ¬ m.contains k = true := by
      rw [ExtTreeMap.contains_iff_mem]
      exact hnew (k, v) List.mem_cons_self
    rw [insertNew, if_neg hk]
    refine ih hnodup.2 fun e he hmem => ?_
    rcases ExtTreeMap.mem_insert.mp hmem with heq | hmem
    · rw [Std.compare_eq_iff_eq] at heq
      exact hnodup.1 (List.mem_map.mpr ⟨e, he, heq.symm⟩)
    · exact hnew e (List.mem_cons_of_mem _ he) hmem

theorem removeEach_ok {ε : Type} (error : ε) (f : κ → ν) {ks : List κ} (hnodup : ks.Nodup)
    (hm : ∀ k ∈ ks, m[k]? = some (f k)) : removeEach error ks m = .ok (ks.map f) := by
  induction ks generalizing m with
  | nil => rfl
  | cons k ks ih =>
    obtain ⟨hk, hks⟩ := List.forall_mem_cons.mp hm
    rw [List.nodup_cons] at hnodup
    have hrest : removeEach error ks (m.erase k) = .ok (ks.map f) := by
      refine ih hnodup.2 fun a ha => ?_
      rw [ExtTreeMap.getElem?_erase, if_neg ?_]
      · exact hks a ha
      · rw [Std.compare_eq_iff_eq]
        exact fun heq => hnodup.1 (heq ▸ ha)
    rw [removeEach, hk]
    simp only
    rw [hrest]
    rfl

end Foks.Lib
