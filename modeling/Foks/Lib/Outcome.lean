/-
  Results of fallible functions: `Except` chains taken apart and put together.

  A fallible function of the modelled program returns `Except ε α`. A chain of such calls
  that ends in `.ok` had an `.ok` at every link (`bind_eq_ok`); a loop that collects results
  is `List.mapM`, and it ends in `.ok` exactly when every call does (`mapM_eq_ok_iff`).
-/
import Mathlib.Data.List.Forall2

namespace Foks.Lib

variable {ε α β : Type} {x : Except ε α}

theorem bind_eq_ok {f : α → Except ε β} {b : β} :
    (x >>= f) = .ok b ↔ ∃ a, x = .ok a ∧ f a = .ok b := by
  cases x with
  | error e => simp [bind, Except.bind]
  | ok a => simp [bind, Except.bind]

theorem bind_of_ok {f : α → Except ε β} {a : α} {b : β} (hx : x = .ok a) (hf : f a = .ok b) :
    (x >>= f) = .ok b := bind_eq_ok.mpr ⟨a, hx, hf⟩

@[simp] theorem ok_bind (a : α) (f : α → Except ε β) : (Except.ok a >>= f) = f a := rfl

@[simp] theorem error_bind (e : ε) (f : α → Except ε β) :
    (Except.error e >>= f) = .error e := rfl

@[simp] theorem bind_ok (x : Except ε α) : (x >>= fun a => .ok a) = x := by
  cases x <;> rfl

@[simp] theorem pure_eq_ok (a : α) : (pure a : Except ε α) = .ok a := rfl

variable {a : α} {e : ε} {c : Prop}

/-- A guard in front of a chain: the chain goes on exactly when the guard does not fire. -/
theorem ite_error_eq_ok [Decidable c] : (if c then .error e else x) = .ok a ↔ ¬ c ∧ x = .ok a := by
  split <;> simp_all

theorem exists_of_toOption_any {p : α → Bool} (h : x.toOption.any p = true) :
    ∃ a, x = .ok a ∧ p a = true := by
  cases x with
  | error e => cases h
  | ok a => exact ⟨a, rfl, h⟩

/-- One arm of a long chain of tests at a time. -/
theorem ite_eq_ok [Decidable c] {x y : Except ε α} (h : (if c then x else y) = .ok a) :
    (c ∧ x = .ok a) ∨ (¬ c ∧ y = .ok a) := by
  split at h
  · exact .inl ⟨‹c›, h⟩
  · exact .inr ⟨‹¬ c›, h⟩

/-- `Option::ok_or`: the value, or the given error. -/
def okOr (e : ε) : Option α → Except ε α
  | some a => .ok a
  | none => .error e

@[simp] theorem okOr_eq_ok {o : Option α} : okOr e o = .ok a ↔ o = some a := by
  cases o <;> simp [okOr]

theorem map_eq_ok {f : α → β} {b : β} :
    x.map f = .ok b ↔ ∃ a, x = .ok a ∧ f a = b := by
  cases x <;> simp [Except.map]

theorem mapError_eq_ok {ε' : Type} {f : ε → ε'} : x.mapError f = .ok a ↔ x = .ok a := by
  cases x <;> simp [Except.mapError]

theorem mapM_nil (f : α → Except ε β) : [].mapM f = .ok [] := rfl

theorem mapM_cons (f : α → Except ε β) (a : α) (as : List α) :
    (a :: as).mapM f = f a >>= fun b => as.mapM f >>= fun bs => .ok (b :: bs) := by
  rw [List.mapM_cons]
  rfl

variable {as : List α} {bs : List β}

theorem mapM_eq_ok_iff {f : α → Except ε β} :
    as.mapM f = .ok bs ↔ List.Forall₂ (fun a b => f a = .ok b) as bs := by
  induction as generalizing bs with
  | nil =>
    rw [mapM_nil]
    cases bs <;> simp
  | cons a as ih =>
    rw [mapM_cons, bind_eq_ok]
    constructor
    · rintro ⟨b, hb, h⟩
      obtain ⟨bs', hbs, h⟩ := bind_eq_ok.mp h
      cases h
      exact .cons hb (ih.mp hbs)
    · intro h
      cases h with
      | cons hb hbs =>
        refine ⟨_, hb, ?_⟩
        rw [ih.mpr hbs]
        rfl

theorem exists_of_mem_forall₂ {R : α → β → Prop} (h : List.Forall₂ R as bs) {b : β} (hb : b ∈ bs) :
    ∃ a ∈ as, R a b := by
  induction h with
  | nil => cases hb
  | cons hhead _ ih =>
    rcases List.mem_cons.mp hb with rfl | hb
    · exact ⟨_, List.mem_cons_self .., hhead⟩
    · obtain ⟨a, ha, hab⟩ := ih hb
      exact ⟨a, List.mem_cons_of_mem _ ha, hab⟩

theorem exists_of_mem_mapM {f : α → Except ε β} (h : as.mapM f = .ok bs) {b : β} (hb : b ∈ bs) :
    ∃ a ∈ as, f a = .ok b :=
  exists_of_mem_forall₂ (mapM_eq_ok_iff.mp h) hb

variable {f : β → α → Except ε β}

theorem foldlM_cons_eq_ok {b b' : β} :
    (a :: as).foldlM f b = .ok b' ↔ ∃ mid, f b a = .ok mid ∧ as.foldlM f mid = .ok b' := by
  rw [List.foldlM_cons, bind_eq_ok]

theorem foldlM_append_eq_ok {as' : List α} {b b' : β} : (as ++ as').foldlM f b = .ok b' ↔
      ∃ mid, as.foldlM f b = .ok mid ∧ as'.foldlM f mid = .ok b' := by
  rw [List.foldlM_append, bind_eq_ok]

/-- What every turn of a loop keeps holds at its end. -/
theorem foldlM_invariant {P : β → Prop} (hstep : ∀ a ∈ as, ∀ b b', P b → f b a = .ok b' → P b')
    {b b' : β} (hb : P b) (h : as.foldlM f b = .ok b') : P b' := by
  induction as generalizing b with
  | nil =>
    cases h
    exact hb
  | cons a as ih =>
    obtain ⟨mid, hmid, h⟩ := foldlM_cons_eq_ok.mp h
    rw [List.forall_mem_cons] at hstep
    exact ih hstep.2 (hstep.1 b mid hb hmid) h

/-- A loop whose every turn succeeds, whatever it starts from, succeeds. -/
theorem foldlM_ok (h : ∀ a ∈ as, ∀ b, ∃ b', f b a = .ok b') (b : β) :
    ∃ b', as.foldlM f b = .ok b' := by
  induction as generalizing b with
  | nil => exact ⟨b, rfl⟩
  | cons a as ih =>
    obtain ⟨b', hb'⟩ := h a List.mem_cons_self b
    obtain ⟨out, hout⟩ := ih (fun c hc => h c (List.mem_cons_of_mem _ hc)) b'
    refine ⟨out, ?_⟩
    rw [List.foldlM_cons, hb', ok_bind, hout]

/-! ## Postconditions -/

/-- The call returns a value with the postcondition, or fails with an error that is allowed. -/
def Ensures (allowed : ε → Prop) (post : α → Prop) : Except ε α → Prop
  | .ok a => post a
  | .error e => allowed e

section Ensures

variable {allowed : ε → Prop} {post : α → Prop} {post' : β → Prop}

section Ensured

variable (hx : Ensures allowed post x)
include hx

theorem Ensures.bind {f : α → Except ε β}
    (hf : ∀ a, post a → Ensures allowed post' (f a)) : Ensures allowed post' (x >>= f) := by
  cases x with
  | error e => exact hx
  | ok a => exact hf a hx

theorem Ensures.map {f : α → β} (hf : ∀ a, post a → post' (f a)) :
    Ensures allowed post' (x.map f) := by
  cases x with
  | error e => exact hx
  | ok a => exact hf a hx

theorem Ensures.mapError {ε' : Type} {allowed' : ε' → Prop} {f : ε → ε'}
    (hf : ∀ e, allowed e → allowed' (f e)) :
    Ensures allowed' post (x.mapError f) := by
  cases x with
  | error e => exact hf e hx
  | ok a => exact hx

theorem Ensures.of_ok (h : x = .ok a) : post a := by
  rw [h] at hx
  exact hx

theorem Ensures.of_error (h : x = .error e) : allowed e := by
  rw [h] at hx
  exact hx

end Ensured

/-- What is known of every value the call returns may be used as its postcondition. -/
theorem ensures_of_errors (herror : ∀ e, x = .error e → allowed e)
    (hok : ∀ a, x = .ok a → post a) : Ensures allowed post x := by
  cases x with
  | error e => exact herror e rfl
  | ok a => exact hok a rfl

theorem Ensures.mono {allowed' : ε → Prop} {post' : α → Prop}
    (hx : Ensures allowed post x) (herror : ∀ e, allowed e → allowed' e)
    (hok : ∀ a, post a → post' a) : Ensures allowed' post' x :=
  ensures_of_errors (fun e h => herror e (hx.of_error h)) fun a h => hok a (hx.of_ok h)

/-- A call that fails only with allowed errors, next to what else is known of its value. -/
theorem Ensures.self (hx : Ensures allowed post x) : Ensures allowed (fun a => x = .ok a) x :=
  ensures_of_errors (fun _ => hx.of_error) fun _ => id

theorem ensures_mapError {ε' : Type} {allowed : ε' → Prop} {f : ε → ε'} (h : ∀ e, allowed (f e))
    (x : Except ε α) : Ensures allowed (fun a => x = .ok a) (x.mapError f) := by
  cases x with
  | error e => exact h e
  | ok a => rfl

theorem ensures_okOr (he : allowed e) (o : Option α) :
    Ensures allowed (fun a => o = some a) (okOr e o) := by
  cases o with
  | none => exact he
  | some a => rfl

/-- A guard that does not fire, or fails with an allowed error. -/
theorem Ensures.guard [Decidable c] (he : c → allowed e) (hx : ¬ c → Ensures allowed post x) :
    Ensures allowed post (if c then .error e else x) := by
  split
  · rename_i hc
    exact he hc
  · rename_i hc
    exact hx hc

/-- The rule for a loop: what every turn keeps holds at the end. -/
theorem ensures_foldlM {P : β → Prop} (hstep : ∀ a ∈ as, ∀ b, P b → Ensures allowed P (f b a))
    {b : β} (hb : P b) : Ensures allowed P (as.foldlM f b) := by
  induction as generalizing b with
  | nil => exact hb
  | cons a as ih =>
    rw [List.foldlM_cons]
    rw [List.forall_mem_cons] at hstep
    exact (hstep.1 b hb).bind fun mid hmid => ih hstep.2 hmid

theorem ensures_mapM {post : α → β → Prop} {f : α → Except ε β} {as : List α}
    (h : ∀ a ∈ as, Ensures allowed (post a) (f a)) :
    Ensures allowed (List.Forall₂ post as) (as.mapM f) := by
  induction as with
  | nil => exact .nil
  | cons a as ih =>
    rw [List.forall_mem_cons] at h
    rw [mapM_cons]
    refine h.1.bind fun b hb => (ih h.2).bind fun bs hbs => ?_
    exact .cons hb hbs

end Ensures

end Foks.Lib
