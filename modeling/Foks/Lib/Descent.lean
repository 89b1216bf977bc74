/-
  Greedy descent along pointers.

  Every point has a height and a list of pointers to lower points. To come from a point down
  to `stop`, the descent jumps at each point to the last of its pointers that is not below
  `stop`, until it is there. `Descent` is the list of points it leaves, `stop` not included.
  The list is linked by pointers and falls strictly, and a property that passes from a point to
  its pointers reaches every point of it.
-/
import Mathlib.Data.List.Chain
import Mathlib.Tactic

namespace Foks.Lib

section Descent

variable {α : Type} (height : α → Nat) (targets : α → List α) (stop : α)

/-- One pass over the pointers of a point, keeping the last one that is not below `stop`. -/
def lastAbove (s : α) (pointers : List α) : α :=
  pointers.foldl (fun kept t => if height stop ≤ height t then t else kept) s

/-- The points a descent leaves, first to last. -/
inductive Descent : α → List α → Prop where
  | done {s : α} (h : height s ≤ height stop) : Descent s []
  | step {s : α} {path : List α} (h : height stop < height s)
      (rest : Descent (lastAbove height stop s (targets s)) path) : Descent s (s :: path)

variable {height targets stop}

theorem lastAbove_cases (s : α) (pointers : List α) :
    (lastAbove height stop s pointers ∈ pointers ∧
      height stop ≤ height (lastAbove height stop s pointers)) ∨
    (lastAbove height stop s pointers = s ∧ ∀ t ∈ pointers, ¬ height stop ≤ height t) := by
  induction pointers generalizing s with
  | nil => exact .inr ⟨rfl, fun t ht => absurd ht (by simp)⟩
  | cons t ts ih =>
    have hstep : lastAbove height stop s (t :: ts) =
        lastAbove height stop (if height stop ≤ height t then t else s) ts := rfl
    rw [hstep]
    rcases ih (if height stop ≤ height t then t else s) with ⟨hmem, hle⟩ | ⟨heq, hnone⟩
    · exact .inl ⟨List.mem_cons_of_mem _ hmem, hle⟩
    · rw [heq]
      by_cases ht : height stop ≤ height t
      · rw [if_pos ht]
        exact .inl ⟨List.mem_cons_self .., ht⟩
      · rw [if_neg ht]
        refine .inr ⟨rfl, fun u hu => ?_⟩
        rcases List.mem_cons.mp hu with rfl | hu
        · exact ht
        · exact hnone u hu

/-- A pointer list that has something to offer above `stop` is jumped along. -/
theorem lastAbove_mem {s t : α} {pointers : List α} (ht : t ∈ pointers)
    (hle : height stop ≤ height t) :
    lastAbove height stop s pointers ∈ pointers ∧
      height stop ≤ height (lastAbove height stop s pointers) := by
  rcases lastAbove_cases s pointers with h | ⟨-, hnone⟩
  · exact h
  · exact absurd hle (hnone t ht)

variable (height targets stop)

/-- Pointers lead down, and above `stop` there is always one that does not pass it. -/
structure Descends : Prop where
  lower : ∀ s, ∀ t ∈ targets s, height t < height s
  reach : ∀ s, height stop < height s → ∃ t ∈ targets s, height stop ≤ height t

variable {height targets stop} {path : List α} {s : α}

theorem Descends.jump (h : Descends height targets stop) (hs : height stop < height s) :
    lastAbove height stop s (targets s) ∈ targets s ∧
      height stop ≤ height (lastAbove height stop s (targets s)) ∧
      height (lastAbove height stop s (targets s)) < height s := by
  obtain ⟨t, ht, hle⟩ := h.reach s hs
  obtain ⟨hmem, hge⟩ := lastAbove_mem ht hle
  exact ⟨hmem, hge, h.lower s _ hmem⟩

theorem Descends.exists_descent (h : Descends height targets stop) (s : α) :
    ∃ path, Descent height targets stop s path := by
  induction hn : height s using Nat.strong_induction_on generalizing s with
  | _ n ih =>
    by_cases hs : height stop < height s
    · obtain ⟨path, hpath⟩ := ih _ (hn ▸ (h.jump hs).2.2) _ rfl
      exact ⟨s :: path, .step hs hpath⟩
    · exact ⟨[], .done (by omega)⟩

theorem Descent.unique {path' : List α} (h : Descent height targets stop s path)
    (h' : Descent height targets stop s path') : path = path' := by
  induction h generalizing path' with
  | done hle =>
    cases h' with
    | done => rfl
    | step hlt => omega
  | step hlt _ ih =>
    cases h' with
    | done hle => omega
    | step _ rest' => rw [ih rest']

/-- The points left lie above `stop`, and at or below the first of them. -/
theorem Descent.mem_bounds (hd : Descends height targets stop)
    (h : Descent height targets stop s path) {t : α} (ht : t ∈ path) :
    height stop < height t ∧ height t ≤ height s := by
  induction h with
  | done => cases ht
  | step hlt _ ih =>
    rcases List.mem_cons.mp ht with rfl | ht
    · exact ⟨hlt, le_refl _⟩
    · have := (hd.jump hlt).2.2
      have := ih ht
      omega

theorem Descent.decreasing (hd : Descends height targets stop)
    (h : Descent height targets stop s path) : path.Pairwise (fun a b => height b < height a) := by
  induction h with
  | done => exact .nil
  | step hlt rest ih =>
    refine .cons (fun t ht => ?_) ih
    have := (hd.jump hlt).2.2
    have := (rest.mem_bounds hd ht).2
    omega

/-- From point to point, and from the last one to `stop`, there is a pointer. -/
theorem Descent.linked (hd : Descends height targets stop) (hinj : Function.Injective height)
    (h : Descent height targets stop s path) (hs : height stop ≤ height s) :
    (path ++ [stop]).IsChain (fun a b => b ∈ targets a) ∧ (path ++ [stop]).head? = some s := by
  induction h with
  | done hle => simp [hinj (le_antisymm hle hs)]
  | @step s path hlt rest ih =>
    obtain ⟨hmem, hge, -⟩ := hd.jump hlt
    obtain ⟨hchain, hhead⟩ := ih hge
    refine ⟨?_, rfl⟩
    cases hp : path ++ [stop] with
    | nil => simp at hp
    | cons t ts =>
      rw [hp] at hchain hhead
      rw [List.cons_append, hp]
      cases hhead
      exact .cons_cons hmem hchain

/-- Only the heights matter for the pass over the pointers. -/
theorem height_lastAbove (s : α) (pointers : List α) :
    height (lastAbove height stop s pointers) =
      lastAbove id (height stop) (height s) (pointers.map height) := by
  induction pointers generalizing s with
  | nil => rfl
  | cons t ts ih =>
    have hstep : lastAbove height stop s (t :: ts) =
        lastAbove height stop (if height stop ≤ height t then t else s) ts := rfl
    rw [hstep, ih, apply_ite height]
    rfl

/-- A descent seen through the heights. -/
theorem Descent.map_height {heights : Nat → List Nat}
    (hheights : ∀ s, (targets s).map height = heights (height s))
    (h : Descent height targets stop s path) :
    Descent id heights (height stop) (height s) (path.map height) := by
  induction h with
  | done hle => exact .done hle
  | @step s path hlt _ ih =>
    rw [@height_lastAbove _ height stop s, hheights] at ih
    exact .step hlt ih

/-- What passes from a point to its pointers holds at every point of a linked list. -/
theorem forall_of_linked {P : α → Prop} {last : α}
    (hchain : (path ++ [last]).IsChain (fun a b => b ∈ targets a))
    (hhead : ∀ s, (path ++ [last]).head? = some s → P s)
    (hstep : ∀ s ∈ path, P s → ∀ t ∈ targets s, P t) : ∀ s ∈ path ++ [last], P s := by
  induction path with
  | nil => simpa using hhead
  | cons s path ih =>
    have hs := hhead s rfl
    have hnext := hstep s List.mem_cons_self hs
    have hrest : ∀ t ∈ path ++ [last], P t := by
      refine ih hchain.tail (fun t ht => ?_) (fun t ht => hstep t (List.mem_cons_of_mem _ ht))
      cases hp : path ++ [last] with
      | nil => simp at hp
      | cons u us =>
        rw [hp] at ht
        rw [List.cons_append, hp] at hchain
        cases ht
        exact hnext _ (List.isChain_cons_cons.mp hchain).1
    intro t ht
    rcases List.mem_cons.mp ht with rfl | ht
    · exact hs
    · exact hrest t ht

end Descent

end Foks.Lib
