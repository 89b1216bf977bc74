/-
  What a loop remembers about one key.

  A loop over items changes a state. Where each item either leaves a view of the state alone or
  overwrites it, the view after the loop is what the last item that writes it has written.
-/
import Mathlib.Data.List.Induction

namespace Foks.Lib

variable {σ α β : Type}

/-- The last item with a property. -/
def lastSuch (p : α → Bool) (items : List α) : Option α := (items.filter p).getLast?

theorem lastSuch_append (p : α → Bool) (front rest : List α) :
    lastSuch p (front ++ rest) = (lastSuch p rest).or (lastSuch p front) := by
  rw [lastSuch, List.filter_append, List.getLast?_append, lastSuch, lastSuch]

theorem lastSuch_concat (p : α → Bool) (items : List α) (a : α) :
    lastSuch p (items ++ [a]) = if p a then some a else lastSuch p items := by
  rw [lastSuch_append]
  by_cases hp : p a <;> simp [lastSuch, hp]

/-- The last item that writes a view decides it. -/
theorem foldl_view {step : σ → α → σ} (view : σ → β) {p : α → Bool} {write : α → β}
    {items : List α} (hskip : ∀ a ∈ items, ¬ p a → ∀ s, view (step s a) = view s)
    (hwrite : ∀ a ∈ items, p a → ∀ s, view (step s a) = write a) (s : σ) :
    view (items.foldl step s) = (lastSuch p items).elim (view s) write := by
  induction items using List.reverseRecOn with
  | nil => rfl
  | append_singleton items a ih =>
    have hlast : a ∈ items ++ [a] := by simp
    have ih := ih (fun b hb => hskip b (by simp [hb])) (fun b hb => hwrite b (by simp [hb]))
    rw [List.foldl_append, lastSuch_concat, List.foldl_cons, List.foldl_nil]
    by_cases hp : p a
    · rw [if_pos hp, hwrite a hlast hp]
      rfl
    · rw [if_neg hp, hskip a hlast hp, ih]

end Foks.Lib
