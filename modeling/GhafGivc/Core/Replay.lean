import Mathlib.Data.List.Nodup
import Mathlib.Logic.Function.Basic
import Mathlib.Tactic.Common

/-! # Replaying edits of a keyed view

A log of edits is replayed over a view of a keyed store. Each edit sets a key, clears it, or
replaces what is there. What a log does to one key is to keep it, to fix it, or to replace
it, so replaying a log over its own result changes nothing.
-/

namespace Core

inductive Edit (α : Type) where
  | put (a : α)
  | drop
  | replace (a : α)
deriving DecidableEq

def Edit.apply {α : Type} : Edit α → Option α → Option α
  | put a, _ => some a
  | drop, _ => none
  | replace a, old => old.map fun _ => a

variable {κ α : Type} [DecidableEq κ]

def replay : List (κ × Edit α) → (κ → Option α) → κ → Option α
  | [], view => view
  | (key, edit) :: log, view => replay log (Function.update view key (edit.apply (view key)))

@[simp] theorem replay_nil (view : κ → Option α) : replay [] view = view := rfl

theorem replay_append (log log' : List (κ × Edit α)) (view : κ → Option α) :
    replay (log ++ log') view = replay log' (replay log view) := by
  induction log generalizing view with
  | nil => rfl
  | cons entry log ih => exact ih _

theorem replay_forms (log : List (κ × Edit α)) (k : κ) :
    (∀ view, replay log view k = view k) ∨ (∃ fixed, ∀ view, replay log view k = fixed) ∨
      ∃ a, ∀ view, replay log view k = (view k).map fun _ => a := by
  induction log with
  | nil => exact Or.inl fun _ => rfl
  | cons entry log ih =>
      obtain ⟨key, edit⟩ := entry
      simp only [replay]
      by_cases hk : k = key
      · subst hk
        rcases ih with hid | ⟨fixed, hfixed⟩ | ⟨a, ha⟩
        · cases edit with
          | put b => exact Or.inr (Or.inl ⟨some b, fun view => by simp [hid, Edit.apply]⟩)
          | drop => exact Or.inr (Or.inl ⟨none, fun view => by simp [hid, Edit.apply]⟩)
          | replace b => exact Or.inr (Or.inr ⟨b, fun view => by simp [hid, Edit.apply]⟩)
        · exact Or.inr (Or.inl ⟨fixed, fun view => hfixed _⟩)
        · cases edit with
          | put b => exact Or.inr (Or.inl ⟨some a, fun view => by simp [ha, Edit.apply]⟩)
          | drop => exact Or.inr (Or.inl ⟨none, fun view => by simp [ha, Edit.apply]⟩)
          | replace b =>
              refine Or.inr (Or.inr ⟨a, fun view => ?_⟩)
              cases view k <;> simp [ha, Edit.apply]
      · rcases ih with hid | ⟨fixed, hfixed⟩ | ⟨a, ha⟩
        · exact Or.inl fun view => by simp [hid, Function.update_of_ne hk]
        · exact Or.inr (Or.inl ⟨fixed, fun view => hfixed _⟩)
        · exact Or.inr (Or.inr ⟨a, fun view => by simp [ha, Function.update_of_ne hk]⟩)

/-- Replaying a log over its own result changes nothing. -/
theorem replay_replay (log : List (κ × Edit α)) (view : κ → Option α) :
    replay log (replay log view) = replay log view := by
  funext k
  rcases replay_forms log k with hid | ⟨fixed, hfixed⟩ | ⟨a, ha⟩
  · rw [hid]
  · rw [hfixed, hfixed]
  · rw [ha, ha]
    cases view k <;> rfl

theorem replay_drops (keys : List κ) (view : κ → Option α) (k : κ) :
    replay (keys.map fun key => (key, Edit.drop)) view k = if k ∈ keys then none else view k := by
  induction keys generalizing view with
  | nil => simp
  | cons key keys ih =>
      rw [List.map_cons, replay, ih]
      by_cases hk : k = key
      · subst hk
        simp [Edit.apply]
      · simp [hk]

end Core
