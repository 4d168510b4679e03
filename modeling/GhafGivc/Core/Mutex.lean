import Mathlib.Tactic.Common

/-! # A mutex that is not reentrant

A computation of one thread is told whether the thread holds the mutex. A thread that takes
a mutex it holds waits for itself, so such a computation has no result.
-/

namespace Core

def Guarded (α : Type) : Type := Bool → Option α

namespace Guarded

variable {α β : Type}

instance : Monad Guarded where
  pure a := fun _ => some a
  bind x f := fun held => (x held).bind fun a => f a held

/-- Takes the mutex for the time of the computation. -/
def locked (x : Guarded α) : Guarded α := fun held => if held then none else x true

@[simp] theorem pure_apply (a : α) (held : Bool) : (pure a : Guarded α) held = some a := rfl

@[simp] theorem bind_apply (x : Guarded α) (f : α → Guarded β) (held : Bool) :
    (x >>= f) held = (x held).bind fun a => f a held := rfl

@[simp] theorem locked_false (x : Guarded α) : locked x false = x true := rfl

@[simp] theorem locked_true (x : Guarded α) : locked x true = none := rfl

def filterMap (f : α → Guarded (Option β)) : List α → Guarded (List β)
  | [] => pure []
  | a :: as => do
      let found ← f a
      let rest ← filterMap f as
      return found.toList ++ rest

def findMap (f : α → Guarded (Option β)) : List α → Guarded (Option β)
  | [] => pure none
  | a :: as => do
      let found ← f a
      match found with
      | some b => pure (some b)
      | none => findMap f as

section Callbacks

variable {f : α → Guarded (Option β)} {as : List α} {held : Bool}

theorem filterMap_returns (h : ∀ a ∈ as, ∃ found, f a held = some found) :
    ∃ found, filterMap f as held = some found := by
  induction as with
  | nil => exact ⟨[], rfl⟩
  | cons a as ih =>
      rcases h a (by simp) with ⟨found, hfound⟩
      rcases ih fun b hb => h b (by simp [hb]) with ⟨rest, hrest⟩
      exact ⟨found.toList ++ rest, by simp [filterMap, hfound, hrest]⟩

theorem findMap_returns (h : ∀ a ∈ as, ∃ found, f a held = some found) :
    ∃ found, findMap f as held = some found := by
  induction as with
  | nil => exact ⟨none, rfl⟩
  | cons a as ih =>
      rcases h a (by simp) with ⟨found, hfound⟩
      cases found with
      | some b => exact ⟨some b, by simp [findMap, hfound]⟩
      | none =>
          rcases ih fun b hb => h b (by simp [hb]) with ⟨rest, hrest⟩
          exact ⟨rest, by simp [findMap, hfound, hrest]⟩

end Callbacks

end Guarded

end Core
