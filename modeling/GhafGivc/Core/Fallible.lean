import Mathlib.Data.List.Forall2

/-! # Fallible computations

How results of type `Except` compose.
-/

namespace Core.Fallible

variable {ε α β : Type} {x : Except ε α} {f : α → Except ε β}

@[simp] theorem pure_eq (a : α) : (pure a : Except ε α) = .ok a := rfl

@[simp] theorem throw_eq (e : ε) : (throw e : Except ε α) = .error e := rfl

@[simp] theorem ok_bind (a : α) (f : α → Except ε β) : (Except.ok a >>= f) = f a := rfl

@[simp] theorem error_bind (e : ε) (f : α → Except ε β) :
    (Except.error e >>= f) = .error e := rfl

theorem bind_eq_ok {b : β} : (x >>= f) = .ok b ↔ ∃ a, x = .ok a ∧ f a = .ok b := by
  cases x with
  | ok a => simp
  | error e => simp

theorem mapError_eq_ok {ε' : Type} {f : ε → ε'} {a : α} : x.mapError f = .ok a ↔ x = .ok a := by
  cases x <;> simp [Except.mapError]

/-- Two results that agree in a view fail alike, or both succeed with the same view. -/
theorem map_eq_map {f : α → β} {x y : Except ε α} (h : x.map f = y.map f) :
    (∃ e, x = .error e ∧ y = .error e) ∨ ∃ a b, x = .ok a ∧ y = .ok b ∧ f a = f b := by
  cases x with
  | error e =>
      cases y with
      | error e' =>
          cases h
          exact Or.inl ⟨e, rfl, rfl⟩
      | ok b => cases h
  | ok a =>
      cases y with
      | error e => cases h
      | ok b => exact Or.inr ⟨a, b, rfl, rfl, Except.ok.inj h⟩

theorem elim_eq_ok {x : Option α} {e : ε} {a : α} :
    (x.elim (throw e) pure : Except ε α) = .ok a ↔ x = some a := by
  cases x <;> simp

theorem mapM_map_of_ok {read : α → Except ε β} {write : β → α}
    (h : ∀ b, read (write b) = .ok b) (bs : List β) : (bs.map write).mapM read = .ok bs := by
  induction bs with
  | nil => rfl
  | cons b bs ih => simp [h, ih]

theorem forM_eq_ok {f : α → Except ε Unit} {as : List α} :
    as.forM f = .ok () ↔ ∀ a ∈ as, f a = .ok () := by
  induction as with
  | nil => simp
  | cons a as ih =>
      change (f a >>= fun _ => as.forM f) = .ok () ↔ _
      rw [List.forall_mem_cons, ← ih, bind_eq_ok]
      exact ⟨fun ⟨_, h⟩ => h, fun h => ⟨(), h⟩⟩

theorem mapM_eq_ok {as : List α} {bs : List β} :
    as.mapM f = .ok bs ↔ List.Forall₂ (fun a b => f a = .ok b) as bs := by
  induction as generalizing bs with
  | nil => cases bs <;> simp
  | cons a as ih =>
      cases bs with
      | nil => simp [bind_eq_ok]
      | cons b bs => simp [bind_eq_ok, ih]

end Core.Fallible
