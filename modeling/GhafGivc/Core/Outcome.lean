import Mathlib.Tactic.Common

/-! # Fallible computations that may also panic

A computation returns a value, reports an error, or panics. Errors and panics
are kept apart: a caller can recover from the first and never from the second.
-/

namespace Core

inductive Outcome (ε α : Type) where
  | ok (value : α)
  | err (error : ε)
  | panicked
deriving DecidableEq

namespace Outcome

variable {ε α β : Type} {f : α → Outcome ε β} {x : Option α} {error : ε} {condition : Bool}
  {step : β → α → Outcome ε β}

def bind (x : Outcome ε α) (f : α → Outcome ε β) : Outcome ε β :=
  match x with
  | ok a => f a
  | err e => err e
  | panicked => panicked

instance : Monad (Outcome ε) where
  pure := ok
  bind := bind

def ensure (condition : Bool) (error : ε) : Outcome ε Unit :=
  if condition then ok () else err error

def context (x : Option α) (error : ε) : Outcome ε α :=
  match x with
  | some a => ok a
  | none => err error

@[simp] theorem pure_eq (a : α) : (pure a : Outcome ε α) = ok a := rfl

@[simp] theorem ok_bind (a : α) (f : α → Outcome ε β) : (ok a >>= f) = f a := rfl

@[simp] theorem err_bind (e : ε) (f : α → Outcome ε β) : (err e >>= f) = err e := rfl

@[simp] theorem panicked_bind (f : α → Outcome ε β) : (panicked >>= f) = panicked := rfl

theorem bind_eq_ok {x : Outcome ε α} {b : β} : (x >>= f) = ok b ↔ ∃ a, x = ok a ∧ f a = ok b := by
  cases x with
  | ok a => simp
  | err e => simp
  | panicked => simp

theorem bind_ne_err {x : Outcome ε α} {e : ε} (hx : x ≠ err e) (hf : ∀ a, x = ok a → f a ≠ err e) :
    (x >>= f) ≠ err e := by
  cases x with
  | ok a => exact hf a rfl
  | err d =>
      intro h
      exact hx (congrArg err (err.inj h))
  | panicked =>
      intro h
      cases h

theorem ensure_ne_err {error e : ε} (h : error ≠ e) : ensure condition error ≠ err e := by
  cases condition <;> simp [ensure, h]

theorem context_ne_err {error e : ε} (h : error ≠ e) : context x error ≠ err e := by
  cases x <;> simp [context, h]

theorem ensure_eq_ok {u : Unit} : ensure condition error = ok u ↔ condition = true := by
  cases condition <;> simp [ensure]

theorem context_eq_ok {a : α} : context x error = ok a ↔ x = some a := by
  cases x <;> simp [context]

theorem context_eq_err_iff : (∃ e, context x error = err e) ↔ x = none := by
  cases x <;> simp [context]

theorem forM_eq_ok {f : α → Outcome ε PUnit} : x.forM f = ok ⟨⟩ ↔ ∀ a ∈ x, f a = ok ⟨⟩ := by
  cases x with
  | none => simp [Option.forM]
  | some a => simp [Option.forM]

theorem lawfulMonad : LawfulMonad (Outcome ε) :=
  LawfulMonad.mk' _ (fun x => by cases x <;> rfl) (fun _ _ => rfl)
    (fun x _ _ => by cases x <;> rfl)

theorem exists_mapM_eq_ok {as : List α} :
    (∃ bs, as.mapM f = ok bs) ↔ ∀ a ∈ as, ∃ b, f a = ok b := by
  have := lawfulMonad (ε := ε)
  induction as with
  | nil => simp
  | cons a as ih =>
      simp only [List.mapM_cons, List.forall_mem_cons, ← ih, bind_eq_ok, pure_eq, ok.injEq]
      constructor
      · intro h
        rcases h with ⟨_, b, hb, bs, hbs, _⟩
        exact ⟨⟨b, hb⟩, bs, hbs⟩
      · intro h
        rcases h with ⟨⟨b, hb⟩, bs, hbs⟩
        exact ⟨_, b, hb, bs, hbs, rfl⟩

/-- The computation returns, with a value or an error. -/
def Returns (x : Outcome ε α) : Prop := x ≠ panicked

theorem returns_ok (a : α) : (ok a : Outcome ε α).Returns := by
  simp [Returns]

theorem returns_err (e : ε) : (err e : Outcome ε α).Returns := by
  simp [Returns]

theorem returns_ensure (condition : Bool) (error : ε) : (ensure condition error).Returns := by
  cases condition <;> simp [Returns, ensure]

theorem returns_context (x : Option α) (error : ε) : (context x error).Returns := by
  cases x <;> simp [Returns, context]

theorem Returns.exists_err {x : Outcome ε Unit} (hx : x.Returns) (h : x ≠ ok ()) :
    ∃ e, x = err e := by
  cases x with
  | ok u => exact absurd rfl h
  | err e => exact ⟨e, rfl⟩
  | panicked => exact absurd rfl hx

theorem Returns.bind {x : Outcome ε α} (hx : x.Returns) (hf : ∀ a, x = ok a → (f a).Returns) :
    (x >>= f).Returns := by
  cases x with
  | ok a => exact hf a rfl
  | err e => exact returns_err e
  | panicked => exact absurd rfl hx

theorem Returns.foldlM {as : List α} (h : ∀ b, ∀ a ∈ as, (step b a).Returns) (b : β) :
    (as.foldlM step b).Returns := by
  induction as generalizing b with
  | nil => exact returns_ok b
  | cons a as ih =>
      rw [List.foldlM_cons]
      exact (h b a List.mem_cons_self).bind fun c _ =>
        ih (fun d x hx => h d x (List.mem_cons_of_mem a hx)) c

/-- A loop whose state is always `view` of the elements consumed so far: it
succeeds exactly when all of them together are `Good`. -/
theorem foldlM_eq_ok_iff (view : List α → β) (Good : List α → Prop) (P : α → Prop)
    (mono : ∀ done rest, Good (done ++ rest) → Good done)
    (good : ∀ done a, P a → Good (done ++ [a]) → step (view done) a = ok (view (done ++ [a])))
    (bad : ∀ done a b, P a → Good done → step (view done) a = ok b → Good (done ++ [a]))
    (done : List α) {rest : List α} {b : β} (hdone : Good done) (hrest : ∀ a ∈ rest, P a) :
    rest.foldlM step (view done) = ok b ↔ Good (done ++ rest) ∧ b = view (done ++ rest) := by
  induction rest generalizing done with
  | nil => simp [hdone, eq_comm]
  | cons a as ih =>
      have ha : P a := hrest a (by simp)
      have has : ∀ c ∈ as, P c := fun c hc => hrest c (by simp [hc])
      have happ : done ++ a :: as = done ++ [a] ++ as := by simp
      rw [List.foldlM_cons, bind_eq_ok, happ]
      constructor
      · rintro ⟨c, hc, hb⟩
        have hg := bad done a c ha hdone hc
        rw [good done a ha hg] at hc
        cases hc
        exact (ih _ hg has).mp hb
      · intro h
        have hg : Good (done ++ [a]) := mono _ _ h.1
        exact ⟨_, good done a ha hg, (ih _ hg has).mpr h⟩

/-- A loop that leaves at the first failure, with the elements it got to. The run of
an element may depend on its position. -/
def each (run : Nat → α → Outcome ε Unit) : Nat → List α → List α × Outcome ε Unit
  | _, [] => ([], ok ())
  | i, a :: as =>
      match run i a with
      | ok () =>
          let (done, result) := each run (i + 1) as
          (a :: done, result)
      | err e => ([a], err e)
      | panicked => ([a], panicked)

section Each

variable {run : Nat → α → Outcome ε Unit}

theorem each_of_forall_ok {i : Nat} {as : List α}
    (h : ∀ k a, as[k]? = some a → run (i + k) a = ok ()) : each run i as = (as, ok ()) := by
  induction as generalizing i with
  | nil => rfl
  | cons a as ih =>
      have ha : run i a = ok () := h 0 a rfl
      have has := ih fun k b hb => by
        have := h (k + 1) b hb
        rwa [← Nat.add_assoc, Nat.add_right_comm] at this
      simp [each, ha, has]

theorem each_of_first_failure {i k : Nat} {as : List α} {a : α} (hk : as[k]? = some a)
    (hfail : run (i + k) a ≠ ok ()) (h : ∀ j < k, ∀ b, as[j]? = some b → run (i + j) b = ok ()) :
    each run i as = (as.take (k + 1), run (i + k) a) := by
  induction as generalizing i k with
  | nil => simp at hk
  | cons b as ih =>
      cases k with
      | zero =>
          obtain rfl : b = a := by simpa using hk
          rw [Nat.add_zero] at hfail
          cases hb : run i b with
          | ok u => exact absurd hb hfail
          | err e => simp [each, hb]
          | panicked => simp [each, hb]
      | succ k =>
          have hb : run i b = ok () := h 0 (by omega) b rfl
          have hshift : ∀ j, i + (j + 1) = i + 1 + j := fun j => by omega
          rw [hshift] at hfail ⊢
          have has := ih (by simpa using hk) hfail fun j hj c hc => by
            rw [← hshift]
            exact h (j + 1) (by omega) c (by simpa using hc)
          simp [each, hb, has]

end Each

end Outcome

end Core
